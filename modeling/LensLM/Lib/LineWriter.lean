import LensLM.Lib.ByteText
import LensLM.Lib.Spans
import Mathlib.Data.List.Count
import Mathlib.Data.List.DropRight
import Mathlib.Data.List.Forall2

/-!
# Texts written line by line

Texts appended to a buffer with a newline after each are slices of it. When the newlines at the end
of the buffer are trimmed they remain slices exactly if the last text does not end in one.
-/

namespace LineWriter

open ByteText Spans

set_option autoImplicit false

def written : List Str → Str
  | [] => []
  | t :: ts => t ++ '\n' :: written ts

/-- Where the texts are when the first begins at `n`. -/
def spans (n : Nat) : List Str → List Span
  | [] => []
  | t :: ts => ⟨n, n + byteLen t⟩ :: spans (n + byteLen t + 1) ts

/-- Each text is the slice at its span. -/
def SlicedAs (buf : Str) : List Span → List Str → Prop :=
  List.Forall₂ fun s t => slice buf s.start s.stop = some t

def trimNewlines (s : Str) : Str := s.rdropWhile (· == '\n')

theorem written_append (ts us : List Str) : written (ts ++ us) = written ts ++ written us := by
  induction ts with
  | nil => rfl
  | cons t ts ih => simp [written, ih]

theorem spans_append (n : Nat) (ts us : List Str) :
    spans n (ts ++ us) = spans n ts ++ spans (n + byteLen (written ts)) us := by
  induction ts generalizing n with
  | nil => rfl
  | cons t ts ih =>
    have hlen : n + byteLen t + 1 + byteLen (written ts) = n + byteLen (written (t :: ts)) := by
      have hnl : Char.utf8Size '\n' = 1 := rfl
      simp only [written, byteLen_append, byteLen_cons, hnl]
      omega
    simp only [List.cons_append, spans, ih, hlen]

theorem written_concat (ts : List Str) (t : Str) :
    written (ts ++ [t]) = written ts ++ t ++ ['\n'] := by
  rw [written_append]
  simp [written]

theorem spans_concat (ts : List Str) (t : Str) : spans 0 (ts ++ [t]) =
    spans 0 ts ++ [⟨byteLen (written ts), byteLen (written ts) + byteLen t⟩] := by
  rw [spans_append, Nat.zero_add]
  rfl

theorem start_of_mem_spans {n : Nat} {ts : List Str} {s : Span} (h : s ∈ spans n ts) :
    n ≤ s.start := by
  induction ts generalizing n with
  | nil => cases h
  | cons t ts ih =>
    rcases List.mem_cons.mp h with h | h
    · rw [h]
    · have := ih h
      omega

/-- Between two texts there is a newline. -/
theorem spans_apart (n : Nat) (ts : List Str) :
    (spans n ts).Pairwise fun a b => a.stop < b.start := by
  induction ts generalizing n with
  | nil => exact List.Pairwise.nil
  | cons t ts ih =>
    refine List.Pairwise.cons ?_ (ih _)
    intro s hs
    have := start_of_mem_spans hs
    show n + byteLen t < s.start
    omega

theorem slicedAs_written (before after : Str) (ts : List Str) :
    SlicedAs (before ++ (written ts ++ after)) (spans (byteLen before) ts) ts := by
  induction ts generalizing before with
  | nil => exact List.Forall₂.nil
  | cons t ts ih =>
    refine List.Forall₂.cons ?_ ?_
    · exact slice_eq_some.mpr ⟨before, '\n' :: (written ts ++ after), by simp [written], rfl, rfl⟩
    · have hrest := ih (before ++ t ++ ['\n'])
      have hlen : byteLen (before ++ t ++ ['\n']) = byteLen before + byteLen t + 1 := by
        have hnl : Char.utf8Size '\n' = 1 := rfl
        simp only [byteLen_append, byteLen_cons, byteLen_nil, hnl]
      have hbuf : before ++ t ++ ['\n'] ++ (written ts ++ after) =
          before ++ (written (t :: ts) ++ after) := by simp [written]
      rw [hlen, hbuf] at hrest
      exact hrest

theorem slicedAs_all (ts : List Str) : SlicedAs (written ts) (spans 0 ts) ts := by
  have h := slicedAs_written [] [] ts
  rwa [List.append_nil, List.nil_append] at h

theorem trimNewlines_append (s : Str) : trimNewlines (s ++ ['\n']) = trimNewlines s :=
  List.rdropWhile_concat_pos _ _ _ rfl

theorem byteLen_trimNewlines_le (s : Str) : byteLen (trimNewlines s) ≤ byteLen s := by
  obtain ⟨r, hr⟩ := List.rdropWhile_prefix (fun c => c == '\n') s
  have := congrArg byteLen hr
  rw [byteLen_append] at this
  show byteLen (s.rdropWhile _) ≤ _
  omega

theorem trimNewlines_written {ts : List Str} {t : Str} {c : Char} (ht : t.getLast? = some c)
    (hc : c ≠ '\n') : trimNewlines (written (ts ++ [t])) = written ts ++ t := by
  obtain ⟨u, rfl⟩ := List.getLast?_eq_some_iff.mp ht
  rw [written_concat, trimNewlines_append, ← List.append_assoc]
  exact List.rdropWhile_concat_neg _ _ _ (by simpa using hc)

/-- The slices survive the trim unless the last text ends in a newline. -/
theorem slicedAs_trimmed_iff {ts : List Str} (hne : ∀ t ∈ ts.getLast?, t ≠ []) :
    SlicedAs (trimNewlines (written ts)) (spans 0 ts) ts ↔
      ∀ t ∈ ts.getLast?, t.getLast? ≠ some '\n' := by
  rcases List.eq_nil_or_concat' ts with rfl | ⟨us, t, rfl⟩
  · exact ⟨nofun, fun _ => List.Forall₂.nil⟩
  · rw [List.getLast?_concat] at hne ⊢
    simp only [Option.mem_def, Option.some.injEq, forall_eq'] at hne ⊢
    rw [spans_concat]
    constructor
    · intro h hlast
      obtain ⟨u, rfl⟩ := List.getLast?_eq_some_iff.mp hlast
      -- Both newlines are trimmed, and the last span ends behind the first of them.
      have htrim : trimNewlines (written (us ++ [u ++ ['\n']])) = trimNewlines (written us ++ u) := by
        rw [written_concat, trimNewlines_append, ← List.append_assoc, trimNewlines_append]
      rw [htrim] at h
      have hslice : slice (trimNewlines (written us ++ u)) (byteLen (written us))
          (byteLen (written us) + byteLen (u ++ ['\n'])) = some (u ++ ['\n']) := by
        have hdrop := List.forall₂_drop_append _ us [u ++ ['\n']] h
        rw [List.drop_left' (slicedAs_all us).length_eq] at hdrop
        exact (List.forall₂_cons.mp hdrop).1
      have hle := (slice_right_boundary hslice).le
      have htrimmed := byteLen_trimNewlines_le (written us ++ u)
      have hnl : Char.utf8Size '\n' = 1 := rfl
      simp only [byteLen_append, byteLen_cons, byteLen_nil, hnl] at hle htrimmed
      omega
    · intro hlast
      obtain ⟨c, hc⟩ := Option.isSome_iff_exists.mp (List.getLast?_isSome.mpr hne)
      have hcn : c ≠ '\n' := by
        intro h
        exact hlast (h ▸ hc)
      rw [trimNewlines_written hc hcn]
      refine List.rel_append (slicedAs_written [] t us) (List.Forall₂.cons ?_ List.Forall₂.nil)
      exact slice_eq_some.mpr ⟨written us, [], by simp, rfl, rfl⟩

theorem SlicedAs.slice_of_mem {buf : Str} {places : List Span} {ts : List Str} {p : Span}
    (h : SlicedAs buf places ts) (hp : p ∈ places) : ∃ t ∈ ts, slice buf p.start p.stop = some t := by
  induction h with
  | nil => cases hp
  | @cons q t places ts hslice _ ih =>
    rcases List.mem_cons.mp hp with rfl | hp
    · exact ⟨t, List.mem_cons_self, hslice⟩
    · obtain ⟨u, hu, hslice⟩ := ih hp
      exact ⟨u, List.mem_cons_of_mem t hu, hslice⟩

/-- The trim takes nothing of a slice that ends in another character. -/
theorem slice_trimNewlines {s t : Str} {a b : Nat} (h : slice s a b = some t) (hne : t ≠ [])
    (hlast : t.getLast? ≠ some '\n') : slice (trimNewlines s) a b = some t := by
  obtain ⟨p, q, rfl, hp, hb⟩ := slice_eq_some.mp h
  have hkeep : ((p ++ t).rdropWhile fun c => c == '\n') = p ++ t := by
    apply List.rdropWhile_eq_self_iff.mpr
    intro hpt hnl
    apply hlast
    rw [List.getLast?_eq_some_getLast hne, ← List.getLast_append_of_ne_nil hpt hne,
      beq_iff_eq.mp hnl]
  have hpre : p ++ t <+: trimNewlines (p ++ (t ++ q)) := by
    unfold trimNewlines
    rw [← List.append_assoc]
    unfold List.rdropWhile at hkeep ⊢
    rw [List.reverse_append, List.dropWhile_append]
    split
    · simp only [hkeep, List.prefix_rfl]
    · rw [List.reverse_append, List.reverse_reverse]
      exact List.prefix_append _ _
  obtain ⟨r, hr⟩ := hpre
  exact slice_eq_some.mpr ⟨p, r, by rw [← hr, List.append_assoc], hp, hb⟩

theorem count_written (ts : List Str) {c : Char} (hc : c ≠ '\n') :
    (written ts).count c = ts.flatten.count c := by
  induction ts with
  | nil => rfl
  | cons t ts ih =>
    rw [written, List.flatten_cons, List.count_append, List.count_append,
      List.count_cons_of_ne (Ne.symm hc), ih]

end LineWriter
