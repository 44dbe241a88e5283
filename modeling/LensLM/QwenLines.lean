import LensLM.QwenSidecar

/-!
# The lines as they are spelled

Requests and replies are JSON objects with their members in one order. A string spells its line ends,
quotes and braces with letters, so that a line falls apart at its quotes and has one brace in front.
-/

namespace LensLM.QwenSidecar

open ByteText

set_option autoImplicit false

def escapeChar (c : Char) : Str :=
  if c = '\\' then ['\\', '\\']
  else if c = '\n' then ['\\', 'n']
  else if c = '"' then ['\\', 'q']
  else if c = '{' then ['\\', 'o']
  else [c]

def escape (s : Str) : Str := s.flatMap escapeChar

/-- What a letter behind a backslash stands for. -/
def escaped (c : Char) : Char :=
  if c = 'n' then '\n' else if c = 'q' then '"' else if c = 'o' then '{' else c

def unescape : Str → Str
  | [] => []
  | [c] => [c]
  | c :: d :: s => if c = '\\' then escaped d :: unescape s else c :: unescape (d :: s)

theorem unescape_cons {c : Char} (h : c ≠ '\\') (s : Str) :
    unescape (c :: s) = c :: unescape s := by
  cases s with
  | nil => rfl
  | cons d s => rw [unescape, if_neg h]

theorem unescape_escape (s : Str) : unescape (escape s) = s := by
  induction s with
  | nil => rfl
  | cons c s ih =>
    rw [escape, List.flatMap_cons, ← escape, escapeChar]
    split
    · next h => rw [h]; exact congrArg _ ih
    · next h =>
      split
      · next h => rw [h]; exact congrArg _ ih
      · split
        · next h => rw [h]; exact congrArg _ ih
        · split
          · next h => rw [h]; exact congrArg _ ih
          · rw [List.singleton_append, unescape_cons h, ih]

/-- The marks that a string does not have once it is spelled. -/
def marks : Str := ['\n', '"', '{']

theorem mem_marks {c : Char} : c ∈ marks ↔ c = '\n' ∨ c = '"' ∨ c = '{' := by
  simp [marks]

theorem mark_notMem_escapeChar {c : Char} (hc : c ∈ marks) (d : Char) : c ∉ escapeChar d := by
  unfold escapeChar
  by_cases hslash : d = '\\'
  · rw [if_pos hslash]
    rcases mem_marks.mp hc with rfl | rfl | rfl <;> decide
  · by_cases hmark : d ∈ marks
    · rcases mem_marks.mp hc with rfl | rfl | rfl <;>
        rcases mem_marks.mp hmark with rfl | rfl | rfl <;> decide
    · simp only [mem_marks, not_or] at hmark
      rw [if_neg hslash, if_neg hmark.1, if_neg hmark.2.1, if_neg hmark.2.2, List.mem_singleton]
      rintro rfl
      exact absurd (mem_marks.mp hc) (by simpa using hmark)

theorem mark_notMem_escape {c : Char} (hc : c ∈ marks) (s : Str) : c ∉ escape s := by
  intro hmem
  obtain ⟨d, -, hd⟩ := List.mem_flatMap.mp hmem
  exact mark_notMem_escapeChar hc d hd

theorem mark_notMem_digits {c : Char} (hc : c ∈ marks) (n : Nat) : c ∉ Nat.toDigits 10 n := by
  intro hmem
  have hdigit := Nat.isDigit_of_mem_toDigits (by decide) (by decide) hmem
  rcases mem_marks.mp hc with rfl | rfl | rfl <;> exact absurd hdigit (by decide)

def number (s : Str) : Nat := Nat.ofDigitChars 10 (s.filter Char.isDigit) 0

/-! ## Lines in pieces -/

/-- An object whose pieces between its quotes, behind the opening brace, are `parts`. -/
def objectLine (parts : List Str) : Str := ['"'].intercalate (['{'] :: parts)

def pieceOf (line : Str) (i : Nat) : Str := ((line.splitOn '"')[i]?).getD []

def requestParts (q : Request) : List Str :=
  ["id".toList, ':' :: (Nat.toDigits 10 q.id ++ [',']), "instruct".toList, ":".toList,
    escape q.instruct, ",".toList, "language".toList, ":".toList, "auto".toList, ",".toList,
    "op".toList, ":".toList, "synth".toList, ",".toList, "speaker".toList, ":".toList,
    escape q.speaker, ",".toList, "text".toList, ":".toList, escape q.text, ['}']]

def requestLine (q : Request) : Str := objectLine (requestParts q)

/-- Only a line that is spelled as the request is one. -/
def readRequestLine (line : Str) : Option Request :=
  let q : Request := ⟨number (pieceOf line 2), unescape (pieceOf line 21),
    unescape (pieceOf line 17), unescape (pieceOf line 5)⟩
  if requestLine q = line then some q else none

def replyParts (id : Nat) : Except Str Str → List Str
  | .ok path =>
    ["id".toList, ": ".toList ++ (Nat.toDigits 10 id ++ ", ".toList), "ok".toList,
      ": true, ".toList, "path".toList, ": ".toList, escape path, ['}']]
  | .error message =>
    ["id".toList, ": ".toList ++ (Nat.toDigits 10 id ++ ", ".toList), "ok".toList,
      ": false, ".toList, "error".toList, ": ".toList, escape message, ['}']]

def replySpelled (id : Nat) (result : Except Str Str) : Str := objectLine (replyParts id result)

def readReplyLine (line : Str) : ReadReply :=
  let line := line.dropLast
  let id := number (pieceOf line 2)
  let told := unescape (pieceOf line 7)
  let result := if pieceOf line 5 = "path".toList then .ok told else .error told
  if replySpelled id result = line then .reply (synthReply id result) else .unparseable

/-- The two programs with the temporary directory of the system. -/
def plainLines : Outside Char :=
  ⟨'\n', requestLine, replySpelled, readRequestLine, readReplyLine, "/tmp/".toList.isPrefixOf⟩

/-! ## The lines are told apart -/

def Unmarked (parts : List Str) : Prop := ∀ p ∈ parts, ∀ c ∈ marks, c ∉ p

theorem number_of_digits (front back : Str) (n : Nat) (hfront : front.filter Char.isDigit = [])
    (hback : back.filter Char.isDigit = []) : number (front ++ (Nat.toDigits 10 n ++ back)) = n := by
  unfold number
  rw [List.filter_append, List.filter_append, hfront, hback, List.nil_append, List.append_nil]
  rw [List.filter_eq_self.mpr]
  · exact Nat.ofDigitChars_ten_toDigits
  · intro c hc
    exact Nat.isDigit_of_mem_toDigits (by decide) (by decide) hc

theorem splitOn_objectLine {parts : List Str} (h : Unmarked parts) :
    (objectLine parts).splitOn '"' = ['{'] :: parts := by
  apply List.splitOn_intercalate
  · intro l hl
    rcases List.mem_cons.mp hl with rfl | hl
    · decide
    · exact h l hl '"' (by decide)
  · exact List.cons_ne_nil _ _

theorem notMem_joined {c : Char} (hc : c ≠ '"') {parts : List Str} (h : ∀ p ∈ parts, c ∉ p) :
    c ∉ ['"'].intercalate parts := by
  induction parts with
  | nil => exact List.not_mem_nil
  | cons p parts ih =>
    have hp := h p List.mem_cons_self
    have hrest := ih fun p' hp' => h p' (List.mem_cons_of_mem _ hp')
    cases parts with
    | nil =>
      rw [List.intercalate_singleton]
      exact hp
    | cons p' parts =>
      rw [List.intercalate_cons_cons]
      simp only [List.mem_append, List.mem_singleton, not_or]
      exact ⟨⟨hp, hc⟩, hrest⟩

theorem newline_notMem_objectLine {parts : List Str} (h : Unmarked parts) :
    '\n' ∉ objectLine parts := by
  apply notMem_joined (by decide)
  intro p hp
  rcases List.mem_cons.mp hp with rfl | hp
  · decide
  · exact h p hp '\n' (by decide)

/-- There is one brace, in front. -/
theorem objectLine_brace {parts : List Str} (h : Unmarked parts) :
    ∃ body, objectLine parts = '{' :: body ∧ '{' ∉ body := by
  refine ⟨['"'].intercalate ([] :: parts), List.intercalate_cons_cons_left, ?_⟩
  apply notMem_joined (by decide)
  intro p hp
  rcases List.mem_cons.mp hp with rfl | hp
  · exact List.not_mem_nil
  · exact h p hp '{' (by decide)

theorem unmarked_of_all {p : Str} (h : (marks.all fun c => !p.contains c) = true) :
    ∀ c ∈ marks, c ∉ p := by
  intro c hc
  simpa using List.all_eq_true.mp h c hc

theorem unmarked_digits (front back : Str) (n : Nat)
    (hfront : (marks.all fun c => !front.contains c) = true)
    (hback : (marks.all fun c => !back.contains c) = true) :
    ∀ c ∈ marks, c ∉ front ++ (Nat.toDigits 10 n ++ back) := by
  intro c hc
  simp only [List.mem_append, not_or]
  exact ⟨unmarked_of_all hfront c hc, mark_notMem_digits hc n, unmarked_of_all hback c hc⟩

theorem Unmarked.cons {p : Str} {parts : List Str} (hp : ∀ c ∈ marks, c ∉ p)
    (h : Unmarked parts) : Unmarked (p :: parts) := by
  intro p' hp'
  rcases List.mem_cons.mp hp' with rfl | hp'
  · exact hp
  · exact h p' hp'

theorem Unmarked.spelled {parts : List Str} (ps : List Str) (s : Str)
    (hps : (ps.all fun p => marks.all fun c => !p.contains c) = true) (h : Unmarked parts) :
    Unmarked (ps ++ escape s :: parts) := by
  intro p hp
  rcases List.mem_append.mp hp with hp | hp
  · exact unmarked_of_all (List.all_eq_true.mp hps p hp)
  · exact Unmarked.cons (fun c hc => mark_notMem_escape hc s) h p hp

theorem unmarked_request (q : Request) : Unmarked (requestParts q) := by
  apply Unmarked.cons (unmarked_of_all (by decide))
  apply Unmarked.cons (unmarked_digits [':'] [','] q.id (by decide) (by decide))
  apply Unmarked.spelled ["instruct".toList, ":".toList] q.instruct (by decide)
  apply Unmarked.spelled [",".toList, "language".toList, ":".toList, "auto".toList, ",".toList,
    "op".toList, ":".toList, "synth".toList, ",".toList, "speaker".toList, ":".toList] q.speaker (by decide)
  apply Unmarked.spelled [",".toList, "text".toList, ":".toList] q.text (by decide)
  exact Unmarked.cons (unmarked_of_all (by decide)) nofun

theorem unmarked_reply (id : Nat) (result : Except Str Str) : Unmarked (replyParts id result) := by
  cases result with
  | ok path =>
    apply Unmarked.cons (unmarked_of_all (by decide))
    apply Unmarked.cons (unmarked_digits ": ".toList ", ".toList id (by decide) (by decide))
    apply Unmarked.spelled ["ok".toList, ": true, ".toList, "path".toList, ": ".toList]
      path (by decide)
    exact Unmarked.cons (unmarked_of_all (by decide)) nofun
  | error message =>
    apply Unmarked.cons (unmarked_of_all (by decide))
    apply Unmarked.cons (unmarked_digits ": ".toList ", ".toList id (by decide) (by decide))
    apply Unmarked.spelled ["ok".toList, ": false, ".toList, "error".toList, ": ".toList]
      message (by decide)
    exact Unmarked.cons (unmarked_of_all (by decide)) nofun

theorem readRequestLine_requestLine (q : Request) : readRequestLine (requestLine q) = some q := by
  have hsplit := splitOn_objectLine (unmarked_request q)
  have hid : number (':' :: (Nat.toDigits 10 q.id ++ [','])) = q.id :=
    number_of_digits [':'] [','] q.id (by decide) (by decide)
  unfold readRequestLine pieceOf
  rw [show requestLine q = objectLine (requestParts q) from rfl, hsplit]
  simp only [requestParts, List.getElem?_cons_succ, List.getElem?_cons_zero, Option.getD_some,
    unescape_escape, hid]
  exact if_pos rfl

theorem readReplyLine_replySpelled (id : Nat) (result : Except Str Str) :
    readReplyLine (replySpelled id result ++ ['\n']) = .reply (synthReply id result) := by
  have hsplit := splitOn_objectLine (unmarked_reply id result)
  have hid : number (": ".toList ++ (Nat.toDigits 10 id ++ ", ".toList)) = id :=
    number_of_digits ": ".toList ", ".toList id (by decide) (by decide)
  unfold readReplyLine pieceOf
  rw [List.dropLast_concat, show replySpelled id result = objectLine (replyParts id result) from rfl]
  simp only [hsplit]
  cases result with
  | ok path =>
    simp only [replyParts, List.getElem?_cons_succ, List.getElem?_cons_zero, Option.getD_some,
      unescape_escape, hid, if_pos]
    exact if_pos rfl
  | error message =>
    have hne : "error".toList ≠ "path".toList := by decide
    simp only [replyParts, List.getElem?_cons_succ, List.getElem?_cons_zero, Option.getD_some,
      unescape_escape, hid, if_neg hne]
    exact if_pos rfl

/-- A request has one brace, and so none can stand behind something else. -/
theorem readRequestLine_glued {scraps : Str} (h : scraps ≠ []) (q : Request) :
    readRequestLine (scraps ++ requestLine q) = none := by
  apply if_neg
  intro heq
  obtain ⟨c, scraps, rfl⟩ := List.exists_cons_of_ne_nil h
  obtain ⟨body, hbody, -⟩ := objectLine_brace (unmarked_request q)
  obtain ⟨body', hbody', hnot⟩ := objectLine_brace (unmarked_request _)
  rw [requestLine, hbody', requestLine, hbody, List.cons_append, List.cons.injEq] at heq
  apply hnot
  rw [heq.2]
  exact List.mem_append_right _ List.mem_cons_self

theorem plainLines_lawful : plainLines.Lawful := by
  constructor
  · intro q
    exact newline_notMem_objectLine (unmarked_request q)
  · intro id result
    exact newline_notMem_objectLine (unmarked_reply id result)
  · exact readRequestLine_requestLine
  · intro scraps q _ hne
    exact readRequestLine_glued hne q
  · exact readReplyLine_replySpelled

end LensLM.QwenSidecar
