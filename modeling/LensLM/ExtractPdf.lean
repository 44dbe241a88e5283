import LensLM.ExtractWriter
import LensLM.SectionPath
import Mathlib.Data.List.Sort

/-!
# The PDF extractor

The titles of the outline are written before the segments of their pages. Without an outline short
segments in a large font are headings.
-/

namespace LensLM

open ByteText LineWriter

set_option autoImplicit false

variable {T : Type}

section Outline

/-- A bookmark with its page, if both title and page can be read. -/
inductive Bookmark where
  | mk (title : Option Str) (page : Option Nat) (children : List Bookmark)

structure OutlineEntry where
  depth : Nat
  page : Nat
  title : Str

def MAX_BOOKMARK_DEPTH : Nat := 32

def MAX_BOOKMARK_NODES : Nat := 10000

def Bookmark.entry (depth : Nat) (title : Option Str) (page : Option Nat) : List OutlineEntry :=
  match title, page with
  | some title, some page => if trim title = [] then [] else [⟨depth, page, trim title⟩]
  | _, _ => []

/-- Walks to as many levels as are left. No further sibling is read once a limit is reached. -/
def walkBookmarks : Nat → Nat → List Bookmark → List OutlineEntry → List OutlineEntry
  | 0, _, _, out => out
  | left + 1, depth, nodes, out =>
    nodes.zipIdx.foldl (fun out x =>
      if MAX_BOOKMARK_NODES ≤ out.length ∨ MAX_BOOKMARK_NODES ≤ x.2 then out
      else
        match x.1 with
        | .mk title page children =>
          walkBookmarks left (depth + 1) children (out ++ Bookmark.entry depth title page)) out

def collectBookmarks (root : List Bookmark) : List OutlineEntry :=
  walkBookmarks MAX_BOOKMARK_DEPTH 1 root []

/-- The outline in the order of its pages. -/
def outlineOf (root : List Bookmark) : List OutlineEntry :=
  (collectBookmarks root).insertionSort fun a b => a.page ≤ b.page

theorem closed_walkBookmarks (left depth : Nat) (nodes : List Bookmark) {out : List OutlineEntry}
    (h : ∀ e ∈ out, Closed e.title) :
    ∀ e ∈ walkBookmarks left depth nodes out, Closed e.title := by
  induction left generalizing depth nodes out with
  | zero => exact h
  | succ left ih =>
    have hfold : ∀ (xs : List (Bookmark × Nat)) (out : List OutlineEntry),
        (∀ e ∈ out, Closed e.title) → ∀ e ∈ xs.foldl (fun out x =>
          if MAX_BOOKMARK_NODES ≤ out.length ∨ MAX_BOOKMARK_NODES ≤ x.2 then out
          else
            match x.1 with
            | .mk title page children =>
              walkBookmarks left (depth + 1) children (out ++ Bookmark.entry depth title page))
          out, Closed e.title := by
      intro xs
      induction xs with
      | nil => exact fun out h => h
      | cons x xs ihx =>
        intro out h
        apply ihx
        dsimp only
        split
        · exact h
        · obtain ⟨⟨title, page, children⟩, i⟩ := x
          apply ih
          intro e he
          rcases List.mem_append.mp he with he | he
          · exact h e he
          · unfold Bookmark.entry at he
            split at he
            · split at he
              · cases he
              · rename_i hne
                rw [List.mem_singleton.mp he]
                exact closed_trim hne
            · cases he
    exact hfold _ _ h

theorem closed_outlineOf (root : List Bookmark) : ∀ e ∈ outlineOf root, Closed e.title := by
  intro e he
  have hmem := (List.perm_insertionSort _ _).mem_iff.mp he
  have hnone : ∀ e ∈ ([] : List OutlineEntry), Closed e.title := nofun
  exact closed_walkBookmarks _ _ root hnone e hmem

theorem sorted_outlineOf (root : List Bookmark) :
    (outlineOf root).Pairwise fun a b => a.page ≤ b.page :=
  List.pairwise_insertionSort (fun a b : OutlineEntry => a.page ≤ b.page) _

end Outline

section Pages

/-- A segment of a page's text, and whether its font is large for the page. -/
structure PdfSegment (T : Type) where
  text : Str
  bbox : T × T × T × T
  largeFont : Bool

/-- The text of a page is `none` if it cannot be read. -/
structure PdfDocument (T : Type) where
  bookmarks : List Bookmark
  pages : List (Option (List (PdfSegment T)))

def HEADING_MAX_CHARS : Nat := 120

structure PdfState (T : Type) where
  out : ExtractOutput T
  sectionStack : SectionPathStack
  outline : List OutlineEntry

def PdfState.segment (useOutline : Bool) (pageIndex : Nat) (st : PdfState T)
    (segment : PdfSegment T) : PdfState T :=
  if trim segment.text = [] then st
  else
    let isHeading := !useOutline && segment.text.length ≤ HEADING_MAX_CHARS && segment.largeFont
    let sectionStack := if isHeading then st.sectionStack.push 1 segment.text else st.sectionStack
    let blockType : BlockType := if isHeading then .heading else .paragraph
    { st with
      sectionStack
      out := st.out.emit blockType sectionStack.current segment.text
        (.pdf (pageIndex + 1) segment.bbox) }

variable [Zero T]

def PdfState.title (pageIndex : Nat) (st : PdfState T) (e : OutlineEntry) : PdfState T :=
  if e.page = pageIndex then
    let sectionStack := st.sectionStack.push (max 1 (min e.depth 6)) e.title
    { st with
      sectionStack
      out := st.out.emit .heading sectionStack.current e.title
        (.pdf (pageIndex + 1) (0, 0, 0, 0)) }
  else st

/-- The entries up to a page leave the outline, and the titles of the page itself are written. -/
def PdfState.titles (st : PdfState T) (pageIndex : Nat) : PdfState T :=
  (st.outline.takeWhile fun e => e.page ≤ pageIndex).foldl (PdfState.title pageIndex)
    { st with outline := st.outline.dropWhile fun e => e.page ≤ pageIndex }

def PdfState.page (useOutline : Bool) (st : PdfState T)
    (x : Option (List (PdfSegment T)) × Nat) : PdfState T :=
  let st := st.titles x.2
  match x.1 with
  | none => st
  | some segments => segments.foldl (PdfState.segment useOutline x.2) st

/-- Without any text the output is empty, which calls for OCR. -/
def extractPdf (doc : PdfDocument T) : ExtractOutput T :=
  let outline := outlineOf doc.bookmarks
  let st := doc.pages.zipIdx.foldl (PdfState.page !outline.isEmpty) ⟨.empty, .new, outline⟩
  let out := st.out.trimmed
  if trim out.extractedText = [] then .empty else out

/-- The titles of a page and the texts of its segments that are not blank. -/
def pageTexts (outline : List OutlineEntry) (x : Option (List (PdfSegment T)) × Nat) : List Str :=
  (outline.filter fun e => e.page = x.2).map OutlineEntry.title ++
    ((x.1.getD []).map PdfSegment.text).filter fun t => trim t ≠ []

def pdfTexts (doc : PdfDocument T) : List Str :=
  doc.pages.zipIdx.flatMap (pageTexts (outlineOf doc.bookmarks))

end Pages

section Written

theorem PdfState.wrote_segments {st : PdfState T} {ts : List Str} (h : st.out.Wrote ts)
    (useOutline : Bool) (pageIndex : Nat) (segments : List (PdfSegment T)) :
    (segments.foldl (PdfState.segment useOutline pageIndex) st).out.Wrote
        (ts ++ (segments.map PdfSegment.text).filter fun t => trim t ≠ []) ∧
      (segments.foldl (PdfState.segment useOutline pageIndex) st).outline = st.outline := by
  induction segments generalizing st ts with
  | nil => exact ⟨by simpa using h, rfl⟩
  | cons x segments ih =>
    rw [List.foldl_cons, List.map_cons]
    by_cases hx : trim x.text = []
    · rw [List.filter_cons_of_neg (by simpa using hx), PdfState.segment, if_pos hx]
      exact ih h
    · rw [List.filter_cons_of_pos (by simpa using hx), PdfState.segment, if_neg hx,
        List.append_cons]
      exact ih (h.emit _ _ _ _)

variable [Zero T]

theorem PdfState.wrote_due (st : PdfState T) {ts : List Str} (h : st.out.Wrote ts)
    (pageIndex : Nat) (due : List OutlineEntry) :
    (due.foldl (PdfState.title pageIndex) st).out.Wrote
        (ts ++ (due.filter fun e => e.page = pageIndex).map OutlineEntry.title) ∧
      (due.foldl (PdfState.title pageIndex) st).outline = st.outline := by
  induction due generalizing st ts with
  | nil => exact ⟨by simpa using h, rfl⟩
  | cons e due ih =>
    rw [List.foldl_cons]
    by_cases he : e.page = pageIndex
    · rw [List.filter_cons_of_pos (by simpa using he), PdfState.title, if_pos he, List.map_cons,
        List.append_cons]
      exact ih _ (h.emit _ _ _ _)
    · rw [List.filter_cons_of_neg (by simpa using he), PdfState.title, if_neg he]
      exact ih _ h

/-- In an outline that starts at a page, the entries up to that page are those of it. -/
theorem outline_split {outline : List OutlineEntry} {n : Nat}
    (hsorted : outline.Pairwise fun a b => a.page ≤ b.page) (hstart : ∀ e ∈ outline, n ≤ e.page) :
    (outline.takeWhile fun e => e.page ≤ n) = (outline.filter fun e => e.page = n) ∧
      (outline.dropWhile fun e => e.page ≤ n) = outline.filter fun e => n + 1 ≤ e.page := by
  induction outline with
  | nil => exact ⟨rfl, rfl⟩
  | cons e outline ih =>
    obtain ⟨hfirst, hrest⟩ := List.pairwise_cons.mp hsorted
    have he := hstart e List.mem_cons_self
    by_cases hle : e.page ≤ n
    · obtain ⟨htake, hdrop⟩ := ih hrest fun x hx => hstart x (List.mem_cons_of_mem e hx)
      have heq : e.page = n := by omega
      have hlt : ¬ n + 1 ≤ e.page := by omega
      simp [heq, htake, hdrop]
    · have hall : ∀ x ∈ e :: outline, n + 1 ≤ x.page := by
        intro x hx
        rcases List.mem_cons.mp hx with rfl | hx
        · omega
        · have := hfirst x hx
          omega
      constructor
      · rw [List.takeWhile_cons_of_neg (by simpa using hle)]
        symm
        apply List.filter_eq_nil_iff.mpr
        intro x hx
        have := hall x hx
        simp only [decide_eq_true_eq]
        omega
      · rw [List.dropWhile_cons_of_neg (by simpa using hle)]
        symm
        apply List.filter_eq_self.mpr
        intro x hx
        exact decide_eq_true (hall x hx)

theorem PdfState.wrote_pages (st : PdfState T) {ts : List Str} (h : st.out.Wrote ts)
    (useOutline : Bool) (pages : List (Option (List (PdfSegment T)))) (n : Nat)
    (hsorted : st.outline.Pairwise fun a b => a.page ≤ b.page)
    (hstart : ∀ e ∈ st.outline, n ≤ e.page) :
    ((pages.zipIdx n).foldl (PdfState.page useOutline) st).out.Wrote
      (ts ++ (pages.zipIdx n).flatMap (pageTexts st.outline)) := by
  induction pages generalizing st ts n with
  | nil => simpa using h
  | cons page pages ih =>
    obtain ⟨htake, hdrop⟩ := outline_split hsorted hstart
    have hdue : ((st.outline.takeWhile fun e => e.page ≤ n).filter fun e => e.page = n) =
        st.outline.filter fun e => e.page = n := by
      rw [htake, List.filter_filter]
      simp
    obtain ⟨htitles, houtline⟩ := wrote_due { st with
      outline := st.outline.dropWhile fun e => e.page ≤ n } h n
        (st.outline.takeWhile fun e => e.page ≤ n)
    rw [hdue] at htitles
    have hpage : (st.page useOutline (page, n)).out.Wrote (ts ++ pageTexts st.outline (page, n)) ∧
        (st.page useOutline (page, n)).outline = st.outline.filter fun e => n + 1 ≤ e.page := by
      cases page with
      | none =>
        refine ⟨?_, houtline.trans hdrop⟩
        rw [pageTexts, Option.getD_none, List.map_nil, List.filter_nil, List.append_nil]
        exact htitles
      | some segments =>
        obtain ⟨hsegments, houtline'⟩ := wrote_segments htitles useOutline n segments
        refine ⟨?_, (houtline'.trans houtline).trans hdrop⟩
        rw [List.append_assoc] at hsegments
        exact hsegments
    rw [List.zipIdx_cons, List.foldl_cons, List.flatMap_cons, ← List.append_assoc]
    have hrest := ih _ hpage.1 (n + 1) (by
      rw [hpage.2]
      exact hsorted.filter _) (by
      intro e he
      rw [hpage.2] at he
      simpa using (List.mem_filter.mp he).2)
    have hlater : (pages.zipIdx (n + 1)).flatMap (pageTexts (st.page useOutline (page, n)).outline)
        = (pages.zipIdx (n + 1)).flatMap (pageTexts st.outline) := by
      apply List.flatMap_congr
      intro x hx
      have hle := List.le_snd_of_mem_zipIdx hx
      unfold pageTexts
      rw [hpage.2, List.filter_filter]
      congr 2
      apply List.filter_congr
      intro e _
      by_cases he : e.page = x.2
      · simp [he, hle]
      · simp [he]
    rwa [hlater] at hrest

theorem isBlank_written {ts : List Str} (h : IsBlank (written ts)) : ∀ t ∈ ts, IsBlank t := by
  induction ts with
  | nil => exact nofun
  | cons t ts ih =>
    rw [written, isBlank_append] at h
    have hrest : IsBlank (written ts) := fun c hc => h.2 c (List.mem_cons_of_mem _ hc)
    intro u hu
    rcases List.mem_cons.mp hu with rfl | hu
    · exact h.1
    · exact ih hrest u hu

theorem isBlank_of_trimNewlines {s : Str} (h : IsBlank (trimNewlines s)) : IsBlank s := by
  have hsplit : trimNewlines s ++ s.rtakeWhile (fun c => c == '\n') = s :=
    List.rdropWhile_append_rtakeWhile
  rw [← hsplit]
  apply isBlank_append.mpr
  refine ⟨h, fun c hc => ?_⟩
  have hnl : c = '\n' := by simpa using List.mem_rtakeWhile_imp hc
  rw [hnl]
  decide

omit [Zero T] in
theorem not_isBlank_of_mem_pdfTexts {doc : PdfDocument T} {t : Str} (h : t ∈ pdfTexts doc) :
    ¬ IsBlank t := by
  obtain ⟨x, _, ht⟩ := List.mem_flatMap.mp h
  rcases List.mem_append.mp ht with ht | ht
  · obtain ⟨e, he, rfl⟩ := List.mem_map.mp ht
    obtain ⟨c, hc, hw⟩ := closed_outlineOf _ e (List.mem_filter.mp he).1
    intro hblank
    rw [hblank c (List.mem_of_getLast? hc)] at hw
    cases hw
  · have htrim := (List.mem_filter.mp ht).2
    intro hblank
    rw [trim_eq_nil_iff.mpr hblank] at htrim
    cases htrim

/-- Without texts the output is empty, else the buffer with all of them is trimmed. -/
theorem extractPdf_cases (doc : PdfDocument T) :
    pdfTexts doc = [] ∧ extractPdf doc = .empty ∨
      pdfTexts doc ≠ [] ∧ ∃ out : ExtractOutput T, out.Wrote (pdfTexts doc) ∧
        extractPdf doc = out.trimmed := by
  have hwrote := PdfState.wrote_pages ⟨.empty, .new, outlineOf doc.bookmarks⟩
    ExtractOutput.wrote_empty (!(outlineOf doc.bookmarks).isEmpty) doc.pages 0
      (sorted_outlineOf doc.bookmarks) fun _ _ => Nat.zero_le _
  rw [List.nil_append] at hwrote
  unfold extractPdf
  dsimp only
  split
  · rename_i hblank
    left
    refine ⟨?_, rfl⟩
    by_contra hne
    obtain ⟨t, ht⟩ := List.exists_mem_of_ne_nil _ hne
    rw [ExtractOutput.trimmed, hwrote.text, trim_eq_nil_iff] at hblank
    exact not_isBlank_of_mem_pdfTexts ht (isBlank_written (isBlank_of_trimNewlines hblank) t ht)
  · rename_i hblank
    right
    refine ⟨?_, _, hwrote, rfl⟩
    intro hnone
    apply hblank
    rw [ExtractOutput.trimmed, hwrote.text, show doc.pages.zipIdx.flatMap _ = [] from hnone]
    rfl

/-- A PDF document is sliceable unless its last text ends in a newline. -/
theorem extractPdf_sliceable_iff (doc : PdfDocument T) :
    (extractPdf doc).Sliceable ↔ ∀ t ∈ (pdfTexts doc).getLast?, t.getLast? ≠ some '\n' := by
  rcases extractPdf_cases doc with ⟨hnone, hout⟩ | ⟨_, out, hwrote, hout⟩
  · rw [hnone, hout]
    exact ⟨nofun, fun _ => ExtractOutput.wrote_empty.sliceable⟩
  · rw [hout]
    apply hwrote.trimmed_sliceable_iff
    intro t ht hnil
    rw [hnil] at ht
    exact not_isBlank_of_mem_pdfTexts ht isBlank_nil

end Written

end LensLM
