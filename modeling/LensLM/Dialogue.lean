import LensLM.Error
import LensLM.Lib.JsonScan

/-!
# Dialogue scripts

The two-speaker script that is salvaged from a model's reply: trailing commas are dropped, then
the first list, the first object and the lists within it are tried in turn.
-/

namespace LensLM

open ByteText JsonText

set_option autoImplicit false

inductive Speaker where
  | host
  | guest
deriving DecidableEq, Repr

inductive Emotion where
  | neutral
  | laugh
  | sigh
  | excited
  | thoughtful
  | curious
  | serious
deriving DecidableEq, Repr

structure Turn where
  speaker : Speaker
  text : Str
  emotion : Option Emotion
  sourceIds : List Str
deriving DecidableEq, Repr

structure DialogueScript where
  turns : List Turn
deriving DecidableEq, Repr

section Preclean

def isAsciiWhitespace (c : Char) : Bool :=
  c == ' ' || c == '\t' || c == '\n' || c == '\x0c' || c == '\r'

/-- The next significant character closes a list or an object. -/
def closesNext : Str → Bool
  | [] => false
  | c :: cs => if isAsciiWhitespace c then closesNext cs else c == ']' || c == '}'

def needsClean : QuoteState → Str → Bool
  | _, [] => false
  | q, c :: cs => (q == .outside && c == ',' && closesNext cs) || needsClean (q.step c) cs

def dropCommas : QuoteState → Str → Str
  | _, [] => []
  | q, c :: cs =>
    if q == .outside && c == ',' && closesNext cs then dropCommas q cs
    else c :: dropCommas (q.step c) cs

def preclean (text : Str) : Str :=
  if needsClean .outside text then dropCommas .outside text else text

end Preclean

section Extract

/-- The depths of square brackets and of braces; the subtractions saturate. -/
def arrayTracker : Tracker (Nat × Nat) where
  step d c :=
    if c = '{' then ((d.1, d.2 + 1), false)
    else if c = '}' then ((d.1, d.2 - 1), false)
    else if c = '[' then ((d.1 + 1, d.2), false)
    else if c = ']' then ((d.1 - 1, d.2), d.1 - 1 == 0 && d.2 == 0)
    else (d, false)

def extractJsonArray (text : Str) : Option Str :=
  arrayTracker.take .outside (0, 0) (text.dropWhile (· != '['))

/-- The depth of braces. It is positive from the first brace to the one that ends the scan, so
the subtraction never underflows. -/
def objectTracker : Tracker Nat where
  step d c :=
    if c = '{' then (d + 1, false)
    else if c = '}' then (d - 1, d - 1 == 0)
    else (d, false)

def extractJsonObject (text : Str) : Option Str :=
  objectTracker.take .outside 0 (text.dropWhile (· != '{'))

end Extract

section Parse

/-- A parsed value; the members of an object in the order of its map. -/
inductive Value where
  | null
  | bool (b : Bool)
  | number (raw : Str)
  | string (s : Str)
  | array (vs : List Value)
  | object (members : List (Str × Value))

def turnsName : Str := "turns".toList

/-- The names of fields and variants. -/
def scriptNames : List Str :=
  ["turns", "speaker", "text", "emotion", "source_ids", "host", "guest", "neutral", "laugh", "sigh",
    "excited", "thoughtful", "curious", "serious"].map String.toList

def isTurnsMember (m : Key .curly × Json) : Bool := m.1.string.value == some turnsName

/-- An object with one member `turns`, a list that reads as `ts`. -/
def HasTurns (turn : Json → Option Turn) (ms : Entries .curly) (ts : List Turn) : Prop :=
  (∀ m ∈ ms.toList, m.1.string.value.isSome) ∧
    ∃ m items, ms.toList.filter isTurnsMember = [m] ∧ m.2.elements = some items ∧
      items.mapM turn = some ts

/-- The JSON reader: `turn` reads one turn, the other fields are its entry points. It reads JSON
texts only, skips the white space around them and the members it has no field for, and takes
notice of a string's content in names of fields and variants only. -/
structure SerdeJson where
  turn : Json → Option Turn
  turnsFromStr : Str → Option (List Turn)
  scriptFromStr : Str → Option DialogueScript
  valueFromStr : Str → Option Value
  turnsFromValue : Value → Option (List Turn)
  turns_text : ∀ (w w' : Blank) (v : Json),
    turnsFromStr (w.text ++ (v.text ++ w'.text)) = v.elements.bind (·.mapM turn)
  turns_sound : ∀ s ts, turnsFromStr s = some ts →
    ∃ (w w' : Blank) (v : Json), s = w.text ++ (v.text ++ w'.text)
  script_text : ∀ (lead : Blank) (ms : Entries .curly) (ts : List Turn), HasTurns turn ms ts →
    scriptFromStr (Json.node .curly lead ms).text = some ⟨ts⟩
  turn_like : ∀ v v' t, turn v = some t → Json.Like scriptNames v v' → ∃ t', turn v' = some t'

variable (serde : SerdeJson)

mutual

def findTurnsArray : Value → Option (List Turn)
  | .array vs => (serde.turnsFromValue (.array vs)).filter fun turns => !turns.isEmpty
  | .object members => findInMembers members
  | _ => none

def findInMembers : List (Str × Value) → Option (List Turn)
  | [] => none
  | (_, v) :: members => (findTurnsArray v).or (findInMembers members)

end

/-- The object route: the wrapper form, then a list of turns under another key. -/
def parseObject (obj : Str) : Option DialogueScript :=
  (serde.scriptFromStr obj).or
    (((serde.valueFromStr obj).bind (findTurnsArray serde)).map DialogueScript.mk)

def parseDialogue (text : Str) : Except LensError DialogueScript :=
  let cleaned := preclean text
  match (extractJsonArray cleaned).bind serde.turnsFromStr with
  | some turns => .ok ⟨turns⟩
  | none =>
    match (extractJsonObject cleaned).bind (parseObject serde) with
    | some script => .ok script
    | none => .error (.parse "no JSON array or object found in model output")

end Parse

end LensLM
