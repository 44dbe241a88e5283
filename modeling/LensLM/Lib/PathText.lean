import Mathlib.Data.List.Basic

/-!
# Paths and their texts

An absolute path is the list of its components. A text names a path by its components between
slashes, where a dot stays and two dots go up, from the root or from the working directory.
-/

namespace PathText

set_option autoImplicit false

abbrev Name := List Char

/-- A component that names an entry of a directory. -/
structure Normal (n : Name) : Prop where
  noSlash : '/' ∉ n
  nonempty : n ≠ []
  notDot : n ≠ ['.']
  notDots : n ≠ ['.', '.']

instance (n : Name) : Decidable (Normal n) :=
  decidable_of_iff ('/' ∉ n ∧ n ≠ [] ∧ n ≠ ['.'] ∧ n ≠ ['.', '.'])
    ⟨fun h => ⟨h.1, h.2.1, h.2.2.1, h.2.2.2⟩, fun h => ⟨h.1, h.2, h.3, h.4⟩⟩

/-- A name with an extension is one of an entry, whatever it is a name of. -/
theorem Normal.extended {stem ext : Name} (hs : '/' ∉ stem) (he : Normal ext) :
    Normal (stem ++ '.' :: ext) := by
  have hlen := List.length_pos_iff.mpr he.nonempty
  constructor
  case noSlash =>
    intro h
    rcases List.mem_append.mp h with h | h
    · exact hs h
    · rcases List.mem_cons.mp h with h | h
      · cases h
      · exact he.noSlash h
  case nonempty =>
    intro h
    have := congrArg List.length h
    simp at this
  case notDot =>
    intro h
    have := congrArg List.length h
    simp at this
    omega
  case notDots =>
    intro h
    cases stem with
    | nil => exact he.notDot (List.cons.inj h).2
    | cons c stem =>
      have := congrArg List.length h
      simp at this
      omega

/-- The text of an absolute path. -/
def display (p : List Name) : Name := p.flatMap ('/' :: ·)

def step (p : List Name) (n : Name) : List Name :=
  if n = ['.'] then p else if n = ['.', '.'] then p.dropLast else p ++ [n]

/-- The path that a text names. -/
def resolve (cwd : List Name) (s : Name) : List Name :=
  ((s.splitOn '/').filter fun n => n ≠ []).foldl step (if s.head? = some '/' then [] else cwd)

theorem display_append (p q : List Name) : display (p ++ q) = display p ++ display q :=
  List.flatMap_append

theorem splitOn_display {p : List Name} (h : ∀ n ∈ p, '/' ∉ n) :
    (display p).splitOn '/' = [] :: p := by
  induction p with
  | nil => rfl
  | cons n p ih =>
    have hsplit := ih fun m hm => h m (List.mem_cons_of_mem n hm)
    have hn := h n List.mem_cons_self
    have hrest : (n ++ display p).splitOn '/' = n :: p := by
      cases p with
      | nil =>
        show (n ++ []).splitOn '/' = [n]
        rw [List.append_nil, List.splitOn_eq_singleton hn]
      | cons m p =>
        show (n ++ '/' :: (m ++ display p)).splitOn '/' = _
        rw [List.splitOn_append_cons_self_of_not_mem hn]
        have htail : ([] ++ '/' :: (m ++ display p)).splitOn '/' = [] :: m :: p := hsplit
        rw [List.splitOn_append_cons_self_of_not_mem List.not_mem_nil] at htail
        rw [(List.cons.inj htail).2]
    show ([] ++ '/' :: (n ++ display p)).splitOn '/' = _
    rw [List.splitOn_append_cons_self_of_not_mem List.not_mem_nil, hrest]

theorem foldl_step {p : List Name} (h : ∀ n ∈ p, Normal n) (q : List Name) :
    p.foldl step q = q ++ p := by
  induction p generalizing q with
  | nil => simp
  | cons n p ih =>
    have hn := h n List.mem_cons_self
    rw [List.foldl_cons, step, if_neg hn.notDot, if_neg hn.notDots,
      ih fun m hm => h m (List.mem_cons_of_mem n hm)]
    simp

/-- The text of a path names it. -/
theorem resolve_display {p : List Name} (h : ∀ n ∈ p, Normal n) (hp : p ≠ []) (cwd : List Name) :
    resolve cwd (display p) = p := by
  have hhead : (display p).head? = some '/' := by
    cases p with
    | nil => exact absurd rfl hp
    | cons n p => rfl
  have hfilter : p.filter (fun n => decide (n ≠ [])) = p := by
    rw [List.filter_eq_self]
    intro n hn
    exact decide_eq_true (h n hn).nonempty
  unfold resolve
  rw [if_pos hhead, splitOn_display fun n hn => (h n hn).noSlash, List.filter_cons_of_neg (by simp),
    hfilter, foldl_step h, List.nil_append]

section Components

/-- A part between slashes that is a component: an empty one or a dot is not. -/
def IsPart (n : Name) : Prop := n ≠ [] ∧ n ≠ ['.']

instance (n : Name) : Decidable (IsPart n) := inferInstanceAs (Decidable (_ ∧ _))

def parts (s : Name) : List Name := (s.splitOn '/').filter fun n => IsPart n

/-- The components of a text: the root or a dot at the start, and the parts. -/
def components (s : Name) : List Name :=
  (if s.head? = some '/' then [['/']]
    else if (s.splitOn '/').head? = some ['.'] then [['.']] else []) ++ parts s

/-- What stands after the last slash. -/
def lastPart (s : Name) : Name := (s.splitOn '/').getLastD []

/-- Component by component, a path is strictly below another. -/
def Below (d s : Name) : Prop := ∃ r, r ≠ [] ∧ components s = components d ++ r

variable {p q s : Name}

theorem below_iff : Below p s ↔ components p <+: components s ∧ components p ≠ components s := by
  constructor
  · rintro ⟨r, hr, h⟩
    refine ⟨⟨r, h.symm⟩, fun heq => hr ?_⟩
    rw [heq] at h
    exact List.self_eq_append_right.mp h
  · rintro ⟨⟨r, h⟩, hne⟩
    refine ⟨r, ?_, h.symm⟩
    rintro rfl
    exact hne (by rw [← h, List.append_nil])

instance : Decidable (Below p s) := decidable_of_iff _ below_iff.symm

theorem parts_append_slash (p q : Name) : parts (p ++ '/' :: q) = parts p ++ parts q := by
  rw [parts, List.splitOn_append_cons_self, List.filter_append]
  rfl

theorem parts_slash (q : Name) : parts ('/' :: q) = parts q := parts_append_slash [] q

theorem parts_of_noSlash (h : '/' ∉ s) : parts s = if IsPart s then [s] else [] := by
  rw [parts, List.splitOn_eq_singleton h]
  by_cases hs : IsPart s
  · simp [hs]
  · simp [hs]

theorem noSlash_of_mem_splitOn {n : Name} (h : n ∈ s.splitOn '/') : '/' ∉ n := by
  induction s generalizing n with
  | nil =>
    rw [List.splitOn_nil, List.mem_singleton] at h
    rw [h]
    exact List.not_mem_nil
  | cons c s ih =>
    rw [List.splitOn_cons_eq_if_modifyHead] at h
    split at h
    · rcases List.mem_cons.mp h with rfl | h
      · exact List.not_mem_nil
      · exact ih h
    · rename_i hc
      cases hs : s.splitOn '/' with
      | nil => exact absurd hs (List.splitOn_ne_nil _ _)
      | cons m ms =>
        rw [hs, List.modifyHead_cons] at h
        rcases List.mem_cons.mp h with rfl | h
        · rw [List.mem_cons]
          rintro (heq | hmem)
          · exact hc (beq_iff_eq.mpr heq.symm)
          · exact ih (by rw [hs]; exact List.mem_cons_self) hmem
        · exact ih (by rw [hs]; exact List.mem_cons_of_mem m h)

theorem components_of_absolute (h : s.head? = some '/') : components s = ['/'] :: parts s := by
  rw [components, if_pos h]
  rfl

theorem absolute_of_components {r : List Name} (h : components s = ['/'] :: r) :
    s.head? = some '/' := by
  unfold components at h
  split at h
  · assumption
  · split at h
    · cases (List.cons.inj h).1
    · have hmem : ['/'] ∈ parts s := by
        rw [List.nil_append] at h
        rw [h]
        exact List.mem_cons_self
      exact absurd List.mem_cons_self (noSlash_of_mem_splitOn (List.mem_of_mem_filter hmem))

/-- A text with a slash ends in what follows the last one. -/
theorem exists_lastPart (h : '/' ∈ s) : ∃ d, s = d ++ '/' :: lastPart s ∧ '/' ∉ lastPart s := by
  obtain ⟨a, b, hab, hb⟩ := List.eq_append_cons_of_mem (List.mem_reverse.mpr h)
  have hs : s = b.reverse ++ '/' :: a.reverse := by
    rw [← List.reverse_reverse s, hab]
    simp
  have hlast : lastPart s = a.reverse := by
    rw [lastPart, hs, List.splitOn_append_cons_self,
      List.splitOn_eq_singleton (mt List.mem_reverse.mp hb)]
    simp
  exact ⟨b.reverse, by rw [hlast]; exact hs, by rw [hlast]; exact mt List.mem_reverse.mp hb⟩

/-- A part that goes on is the part as a whole. -/
theorem parts_extended {t h : Name} (ht : '/' ∉ t) (hh : '/' ∉ h) (hpart : IsPart t)
    (hne : h ≠ []) : parts (t ++ h) = [t ++ h] := by
  have hnone : '/' ∉ t ++ h := by
    rw [List.mem_append]
    exact not_or.mpr ⟨ht, hh⟩
  rw [parts_of_noSlash hnone, if_pos]
  constructor
  · exact List.append_ne_nil_of_left_ne_nil hpart.1 h
  · intro hdot
    have hlen := congrArg List.length hdot
    have h₁ := List.length_pos_iff.mpr hpart.1
    have h₂ := List.length_pos_iff.mpr hne
    rw [List.length_append, List.length_singleton] at hlen
    omega

theorem parts_dot {h : Name} (hh : '/' ∉ h) (hne : h ≠ []) :
    parts ('.' :: h) = ['.' :: h] := by
  have hnone : '/' ∉ '.' :: h := by
    rw [List.mem_cons]
    exact not_or.mpr ⟨by decide, hh⟩
  rw [parts_of_noSlash hnone, if_pos]
  refine ⟨List.cons_ne_nil _ _, fun hdot => hne (List.cons.inj hdot).2⟩

theorem parts_ne_dot {h : Name} (hh : '/' ∉ h) (hne : h ≠ []) : parts h ≠ parts ('.' :: h) := by
  rw [parts_dot hh hne, parts_of_noSlash hh]
  split
  · intro heq
    have hlen := congrArg (fun l => (l.map List.length).sum) heq
    simp at hlen
  · exact fun heq => by cases heq

/-- A text without a slash at its start is a part and what follows the next slash. -/
theorem exists_firstPart {rest : Name} (hne : rest ≠ []) (hslash : rest.head? ≠ some '/') :
    ∃ h, h ≠ [] ∧ '/' ∉ h ∧ ∃ ns, ∀ t, parts (t ++ rest) = parts (t ++ h) ++ ns := by
  by_cases hmem : '/' ∈ rest
  · obtain ⟨h, q, rfl, hh⟩ := List.eq_append_cons_of_mem hmem
    refine ⟨h, ?_, hh, parts q, ?_⟩
    · rintro rfl
      exact hslash rfl
    · intro t
      rw [← List.append_assoc, parts_append_slash]
  · exact ⟨rest, hne, hmem, [], fun t => (List.append_nil _).symm⟩

theorem not_isPart_of_extended {t h : Name} (ht : '/' ∉ t) (hh : '/' ∉ h) (hne : h ≠ [])
    {ns r : List Name} (heq : parts (t ++ h) ++ ns = parts t ++ r) : ¬ IsPart t := by
  intro hpart
  rw [parts_extended ht hh hpart hne, parts_of_noSlash ht, if_pos hpart] at heq
  exact hne (List.append_right_eq_self.mp (List.cons.inj heq).1)

/-- A text that is a path below one prefix is the same path below another if it begins with a slash
or both prefixes end alike. -/
theorem parts_after_iff {t u rest : Name} {r : List Name} (ht : '/' ∉ t) (hu : '/' ∉ u)
    (hr : r ≠ []) (h : parts (t ++ rest) = parts t ++ r) :
    parts (u ++ rest) = parts u ++ r ↔ rest.head? = some '/' ∨ t = u := by
  constructor
  · intro h'
    by_contra hno
    obtain ⟨hslash, htu⟩ := not_or.mp hno
    have hne : rest ≠ [] := by
      rintro rfl
      rw [List.append_nil] at h
      exact hr (List.append_right_eq_self.mp h.symm)
    obtain ⟨f, hf, hfs, ns, hns⟩ := exists_firstPart hne hslash
    rw [hns] at h h'
    have htp := not_isPart_of_extended ht hfs hf h
    have hup := not_isPart_of_extended hu hfs hf h'
    rw [parts_of_noSlash ht, if_neg htp, List.nil_append] at h
    rw [parts_of_noSlash hu, if_neg hup, List.nil_append] at h'
    have hsame := List.append_cancel_right (h.trans h'.symm)
    have hcases : ∀ {x : Name}, ¬ IsPart x → x = [] ∨ x = ['.'] := by
      intro x hx
      by_contra hx'
      exact hx (not_or.mp hx')
    rcases hcases htp with rfl | rfl <;> rcases hcases hup with rfl | rfl
    · exact htu rfl
    · exact parts_ne_dot hfs hf hsame
    · exact parts_ne_dot hfs hf hsame.symm
    · exact htu rfl
  · rintro (hslash | rfl)
    · cases rest with
      | nil => cases hslash
      | cons c q =>
        cases hslash
        rw [parts_append_slash] at h ⊢
        rw [List.append_cancel_left h]
    · exact h

/-- For prefixes from the root. -/
theorem parts_below_iff {rest : Name} {r : List Name} (hp : p.head? = some '/')
    (hq : q.head? = some '/') (hr : r ≠ []) (h : parts (p ++ rest) = parts p ++ r) :
    parts (q ++ rest) = parts q ++ r ↔ rest.head? = some '/' ∨ lastPart p = lastPart q := by
  obtain ⟨d, hd, hpl⟩ := exists_lastPart (List.mem_of_head? hp)
  obtain ⟨e, he, hql⟩ := exists_lastPart (List.mem_of_head? hq)
  have hsplit : ∀ {x y l : Name}, x = y ++ '/' :: l →
      (parts (x ++ rest) = parts x ++ r ↔ parts (l ++ rest) = parts l ++ r) := by
    rintro x y l rfl
    rw [List.append_assoc, List.cons_append, parts_append_slash, parts_append_slash,
      List.append_assoc, List.append_cancel_left_eq]
  rw [hsplit hd] at h
  rw [hsplit he]
  exact parts_after_iff hpl hql hr h

end Components

end PathText
