import LensLM.Dialogue
import LensLM.Lib.Outcome
import LensLM.Lib.Packing
import Mathlib.Algebra.Order.BigOperators.Group.List

/-!
# Scene chunks

An exchange that is longer than a cloud voice provider takes is split between turns. The pieces are
measured by what the provider's adapter submits for a turn.
-/

namespace LensLM

open ByteText Outcome Packing Spans

set_option autoImplicit false

def turnTooLong : String :=
  "a dialogue turn is too long for the cloud voice provider; choose a shorter overview length"

/-- The loop over the turns from the `i`-th on: `acc` is the size of the turns since `start`. -/
def sceneChunksFrom (charLimit : Nat) (sizedLen : Turn → Nat) :
    List Turn → Nat → Nat → Nat → List Span → Except LensError (List Span)
  | [], i, start, _, chunks => .ok (if start < i then chunks ++ [⟨start, i⟩] else chunks)
  | turn :: turns, i, start, acc, chunks =>
    let len := sizedLen turn
    if charLimit < len then .error (.validation turnTooLong)
    else if start < i ∧ charLimit < acc + len then
      sceneChunksFrom charLimit sizedLen turns (i + 1) i (0 + len) (chunks ++ [⟨start, i⟩])
    else sceneChunksFrom charLimit sizedLen turns (i + 1) start (acc + len) chunks

def sceneChunks (turns : List Turn) (charLimit : Nat) (sizedLen : Turn → Nat) :
    Except LensError (List Span) :=
  sceneChunksFrom charLimit sizedLen turns 0 0 0 []

/-- The turns of a chunk. -/
def scene (turns : List Turn) (range : Span) : List Turn := part turns range

section Greedy

def SceneFits (turns : List Turn) (charLimit : Nat) (sizedLen : Turn → Nat) (range : Span) : Prop :=
  ((scene turns range).map sizedLen).sum ≤ charLimit

/-- Consecutive non-empty ranges that hold all turns, none larger than the limit. -/
structure SceneCover (turns : List Turn) (charLimit : Nat) (sizedLen : Turn → Nat)
    (chunks : List Span) : Prop where
  tiles : Tiles 0 turns.length chunks
  fits : ∀ range ∈ chunks, SceneFits turns charLimit sizedLen range

variable {turns : List Turn} {charLimit : Nat} {sizedLen : Turn → Nat}

theorem scene_next {before after : List Turn} {turn : Turn} :
    scene (before ++ turn :: after) ⟨before.length, before.length + 1⟩ = [turn] := by
  simp [scene, part]

theorem fits_within (s t : Span) (h : s.Within t) (hfit : SceneFits turns charLimit sizedLen t) :
    SceneFits turns charLimit sizedLen s := by
  obtain ⟨a, b⟩ := s
  obtain ⟨a', b'⟩ := t
  obtain ⟨ha, hb⟩ := h
  simp only at ha hb
  simp only [SceneFits] at hfit ⊢
  rcases Nat.lt_or_ge b a with hlt | hab
  · simp [scene, part_of_ge (Nat.le_of_lt hlt)]
  · rw [scene, part_split ha (Nat.le_trans hab hb), part_split hab hb] at hfit
    simp only [List.map_append, List.sum_append] at hfit
    simp only [scene]
    omega

theorem sceneChunksFrom_error_iff (rest : List Turn) (i start acc : Nat) (chunks : List Span) :
    sceneChunksFrom charLimit sizedLen rest i start acc chunks = .error (.validation turnTooLong) ↔
      ∃ turn ∈ rest, charLimit < sizedLen turn := by
  induction rest generalizing i start acc chunks with
  | nil => simp [sceneChunksFrom]
  | cons turn rest ih =>
    simp only [sceneChunksFrom, List.mem_cons, exists_eq_or_imp]
    split
    · next hlong => simp [hlong]
    · next hshort =>
      split
      · rw [ih]
        simp [hshort]
      · rw [ih]
        simp [hshort]

theorem sceneChunksFrom_error {rest : List Turn} {i start acc : Nat} {chunks : List Span}
    {e : LensError} (h : sceneChunksFrom charLimit sizedLen rest i start acc chunks = .error e) :
    e = .validation turnTooLong := by
  induction rest generalizing i start acc chunks with
  | nil => simp [sceneChunksFrom] at h
  | cons turn rest ih =>
    simp only [sceneChunksFrom] at h
    split at h
    · simpa using h.symm
    · split at h
      · exact ih h
      · exact ih h

/-- The loop invariant: the turns since `start` are within the limit, and `acc` is their size. -/
theorem sceneChunksFrom_eager (before rest : List Turn) {start acc : Nat} {chunks out : List Span}
    (hstart : start ≤ before.length)
    (hacc : acc = ((scene (before ++ rest) ⟨start, before.length⟩).map sizedLen).sum)
    (hfit : acc ≤ charLimit)
    (h : sceneChunksFrom charLimit sizedLen rest before.length start acc chunks = .ok out) :
    ∃ tail, out = chunks ++ tail ∧
      Eager (SceneFits (before ++ rest) charLimit sizedLen) start (before ++ rest).length tail := by
  induction rest generalizing before start acc chunks with
  | nil =>
    rw [List.append_nil] at hacc ⊢
    simp only [sceneChunksFrom] at h
    split at h
    · next hlt =>
      refine ⟨[⟨start, before.length⟩], by simpa using h.symm, .last hlt ?_⟩
      rw [SceneFits, ← hacc]
      exact hfit
    · next hge =>
      obtain rfl : start = before.length := by omega
      exact ⟨[], by simpa using h.symm, .nil _⟩
  | cons turn rest ih =>
    have hturns : before ++ turn :: rest = (before ++ [turn]) ++ rest := by simp
    have hlength : (before ++ [turn]).length = before.length + 1 := by simp
    have hnext : scene (before ++ turn :: rest) ⟨before.length, before.length + 1⟩ = [turn] :=
      scene_next
    have hsize : ((scene (before ++ turn :: rest) ⟨start, before.length + 1⟩).map sizedLen).sum =
        acc + sizedLen turn := by
      rw [scene, part_split hstart (Nat.le_succ _), ← scene, ← scene, hnext, hacc]
      simp
    simp only [sceneChunksFrom] at h
    split at h
    · simp at h
    · next hshort =>
      rw [hturns] at hacc hnext hsize ⊢
      split at h
      · next hcut =>
        have hsingle : 0 + sizedLen turn = ((scene ((before ++ [turn]) ++ rest)
            ⟨before.length, (before ++ [turn]).length⟩).map sizedLen).sum := by
          rw [hlength, hnext]
          simp
        obtain ⟨tail, rfl, heager⟩ := ih (before ++ [turn]) (by simp) hsingle (by omega)
          (hlength ▸ h)
        refine ⟨⟨start, before.length⟩ :: tail, by simp, ?_⟩
        refine .cons hcut.1 ?_ ?_ heager
        · rw [SceneFits, ← hacc]
          exact hfit
        · rw [SceneFits, hsize]
          omega
      · next hkeep =>
        have hempty : start = before.length → acc = 0 := by
          intro heq
          simp [hacc, heq, scene, part_of_ge]
        refine ih (before ++ [turn]) (by simp; omega) ?_ (by omega) (hlength ▸ h)
        rw [hlength, hsize]

theorem sceneChunks_eager {chunks : List Span} (h : sceneChunks turns charLimit sizedLen = .ok chunks) :
    Eager (SceneFits turns charLimit sizedLen) 0 turns.length chunks := by
  obtain ⟨tail, rfl, heager⟩ := sceneChunksFrom_eager [] turns (Nat.le_refl 0)
    (by simp [scene, part_of_ge]) (Nat.zero_le _) h
  exact heager

theorem sceneChunks_fits {chunks : List Span} (h : sceneChunks turns charLimit sizedLen = .ok chunks)
    {range : Span} (hrange : range ∈ chunks) :
    ((scene turns range).map sizedLen).sum ≤ charLimit :=
  (sceneChunks_eager h).fits_of_mem range hrange

end Greedy

/-- How each kind of provider renders an emotion. -/
structure EmotionRender where
  orpheus : Option Str
  elevenlabs : Option Str
  style : Option Str

def emotionRender : Emotion → EmotionRender
  | .neutral => ⟨none, none, none⟩
  | .laugh => ⟨some "<laugh>".toList, some "[laughs]".toList, some "warm, light laughter".toList⟩
  | .sigh => ⟨some "<sigh>".toList, some "[sighs]".toList, some "a soft, weary sigh".toList⟩
  | .excited => ⟨none, some "[excited]".toList, some "bright, energetic excitement".toList⟩
  | .thoughtful => ⟨none, none, some "a measured, thoughtful tone".toList⟩
  | .curious => ⟨none, some "[curious]".toList, some "genuine, engaged curiosity".toList⟩
  | .serious => ⟨none, none, some "a serious, grounded tone".toList⟩

inductive VoiceRef where
  | named (name : Str)
  | reference (clipPath transcript : Str)
deriving DecidableEq, Repr

structure VoiceConfig where
  host : VoiceRef
  guest : VoiceRef
deriving DecidableEq, Repr

def VoiceConfig.of (voices : VoiceConfig) : Speaker → VoiceRef
  | .host => voices.host
  | .guest => voices.guest

def voiceCloningUnsupported : String :=
  "voice cloning (VoiceRef::Reference) is unsupported by the cloud TTS backend; " ++
    "use a named voice id"

def resolveVoiceWith (voice : VoiceRef) (speaker : Speaker) (default : Speaker → Str) :
    Except LensError Str :=
  match voice with
  | .reference _ _ => .error (.tts voiceCloningUnsupported)
  | .named name => .ok (if name.isEmpty then default speaker else name)

namespace ElevenLabs

def dialogueCharLimit : Nat := 2000

def defaultVoice : Speaker → Str
  | .host => "21m00Tcm4TlvDq8ikWAM".toList
  | .guest => "pNInz6obpgDQGcFmaJgB".toList

def emotionToAudioTag (emotion : Emotion) : Option Str := (emotionRender emotion).elevenlabs

/-- The text is counted in characters, the tag in bytes. -/
def sizedLen (turn : Turn) : Nat :=
  let tag := ((turn.emotion.bind emotionToAudioTag).map fun t => byteLen t + 1).getD 0
  turn.text.length + tag

def lineText (turn : Turn) : Str :=
  match turn.emotion.bind emotionToAudioTag with
  | some tag => tag ++ ' ' :: turn.text
  | none => turn.text

structure DialogueInput where
  text : Str
  voiceId : Str
deriving DecidableEq, Repr

/-- The lines of the one request that is sent for a chunk. -/
def dialogueInputs (voices : VoiceConfig) (chunk : List Turn) :
    Except LensError (List DialogueInput) :=
  chunk.mapM fun turn => do
    let voiceId ← resolveVoiceWith (voices.of turn.speaker) turn.speaker defaultVoice
    return ⟨lineText turn, voiceId⟩

end ElevenLabs

namespace Google

def dialogueCharLimit : Nat := 5000

def defaultVoice : Speaker → Str
  | .host => "Kore".toList
  | .guest => "Puck".toList

def speakerLabel : Speaker → Str
  | .host => "Host".toList
  | .guest => "Guest".toList

def emotionStyle (emotion : Emotion) : Option Str := (emotionRender emotion).style

def line (turn : Turn) : Str :=
  let label := speakerLabel turn.speaker
  match turn.emotion.bind emotionStyle with
  | some style => label ++ ": (".toList ++ style ++ ") ".toList ++ turn.text
  | none => label ++ ": ".toList ++ turn.text

def sizedLen (turn : Turn) : Nat := (line turn).length + 1

def transcript (chunk : List Turn) : Str := ['\n'].intercalate (chunk.map line)

/-- The speakers of a chunk in the order of their first turns. -/
def present (chunk : List Turn) : List Speaker :=
  chunk.foldl (fun seen turn => if turn.speaker ∈ seen then seen else seen ++ [turn.speaker]) []

structure SpeakerVoiceConfig where
  speaker : Str
  voiceName : Str
deriving DecidableEq, Repr

structure GenerateRequest where
  text : Str
  speakerVoiceConfigs : List SpeakerVoiceConfig
deriving DecidableEq, Repr

def generateRequest (voices : VoiceConfig) (chunk : List Turn) : Except LensError GenerateRequest := do
  let configs ← (present chunk).mapM fun speaker => do
    let voice ← resolveVoiceWith (voices.of speaker) speaker defaultVoice
    return (⟨speakerLabel speaker, voice⟩ : SpeakerVoiceConfig)
  return ⟨transcript chunk, configs⟩

end Google

section Submitted

theorem mapM_texts {α : Type} {f : Turn → Except LensError α} {text : α → Str} {line : Turn → Str}
    (hf : ∀ turn x, f turn = .ok x → text x = line turn) {chunk : List Turn} {xs : List α}
    (h : chunk.mapM f = .ok xs) : xs.map text = chunk.map line := by
  induction chunk generalizing xs with
  | nil =>
    obtain rfl : [] = xs := by simpa [pure, Except.pure] using h
    rfl
  | cons turn chunk ih =>
    rw [List.mapM_cons] at h
    obtain ⟨x, hx, h⟩ := bind_eq_ok.mp h
    obtain ⟨rest, hrest, h⟩ := bind_eq_ok.mp h
    obtain rfl : x :: rest = xs := by simpa [pure, Except.pure] using h
    simp [hf turn x hx, ih hrest]

theorem intercalate_length_le (lines : List Str) :
    (['\n'].intercalate lines).length ≤ (lines.map fun l => l.length + 1).sum := by
  induction lines with
  | nil => simp
  | cons l lines ih =>
    cases lines with
    | nil => simp
    | cons l' lines =>
      rw [List.intercalate_cons_cons, List.map_cons, List.sum_cons]
      simp only [List.length_append, List.length_singleton]
      omega

/-- A tag has no character beyond ASCII, so its bytes are its characters. -/
theorem ElevenLabs.sizedLen_eq (turn : Turn) : sizedLen turn = (lineText turn).length := by
  have htag : ∀ emotion tag, emotionToAudioTag emotion = some tag → byteLen tag = tag.length := by
    intro emotion tag h
    cases emotion <;> simp [emotionToAudioTag, emotionRender] at h <;> subst h <;> decide
  unfold sizedLen lineText
  cases h : turn.emotion.bind emotionToAudioTag with
  | none => simp
  | some tag =>
    obtain ⟨emotion, -, hemotion⟩ := Option.bind_eq_some_iff.mp h
    simp only [Option.map_some, Option.getD_some, List.length_append, List.length_cons]
    rw [htag emotion tag hemotion]
    omega

theorem ElevenLabs.submitted_eq {voices : VoiceConfig} {chunk : List Turn}
    {inputs : List DialogueInput} (h : dialogueInputs voices chunk = .ok inputs) :
    (inputs.map fun input => input.text.length).sum = (chunk.map sizedLen).sum := by
  have htexts : inputs.map DialogueInput.text = chunk.map lineText := by
    refine mapM_texts ?_ h
    intro turn input hinput
    obtain ⟨voice, -, hinput⟩ := bind_eq_ok.mp hinput
    obtain rfl : DialogueInput.mk (lineText turn) voice = input := by
      simpa [pure, Except.pure] using hinput
    rfl
  have hlengths := congrArg (List.map List.length) htexts
  rw [List.map_map, List.map_map] at hlengths
  have hsized : sizedLen = fun turn => (lineText turn).length := funext sizedLen_eq
  rw [hsized]
  exact congrArg List.sum hlengths

/-- Each line is counted with a line break, and the last has none. -/
theorem Google.submitted_le {voices : VoiceConfig} {chunk : List Turn} {request : GenerateRequest}
    (h : generateRequest voices chunk = .ok request) :
    request.text.length ≤ (chunk.map sizedLen).sum := by
  obtain ⟨configs, -, h⟩ := bind_eq_ok.mp h
  obtain rfl : GenerateRequest.mk (transcript chunk) configs = request := by
    simpa [pure, Except.pure] using h
  have hlen := intercalate_length_le (chunk.map line)
  rwa [List.map_map] at hlen

end Submitted

/-- Chunking fails on a turn that alone is too long and on nothing else, no cover has fewer
chunks, and what either adapter submits for a chunk is within the limit. -/
theorem sceneChunks_optimal (turns : List Turn) (charLimit : Nat) (sizedLen : Turn → Nat) :
    ((∃ e, sceneChunks turns charLimit sizedLen = .error e) ↔
      ∃ turn ∈ turns, charLimit < sizedLen turn) ∧
    (∀ chunks, sceneChunks turns charLimit sizedLen = .ok chunks →
      SceneCover turns charLimit sizedLen chunks ∧ chunks.flatMap (scene turns) = turns ∧
        ∀ cover, SceneCover turns charLimit sizedLen cover → chunks.length ≤ cover.length) ∧
    (∀ chunks, sceneChunks turns charLimit ElevenLabs.sizedLen = .ok chunks →
      ∀ range ∈ chunks, ∀ voices inputs,
        ElevenLabs.dialogueInputs voices (scene turns range) = .ok inputs →
          (inputs.map fun input => input.text.length).sum ≤ charLimit) ∧
    (∀ chunks, sceneChunks turns charLimit Google.sizedLen = .ok chunks →
      ∀ range ∈ chunks, ∀ voices request,
        Google.generateRequest voices (scene turns range) = .ok request →
          request.text.length ≤ charLimit) := by
  refine ⟨?_, ?_, ?_, ?_⟩
  · rw [← sceneChunksFrom_error_iff turns 0 0 0 []]
    constructor
    · rintro ⟨e, he⟩
      exact sceneChunksFrom_error he ▸ he
    · intro h
      exact ⟨_, h⟩
  · intro chunks h
    have heager := sceneChunks_eager h
    refine ⟨⟨heager.tiles, heager.fits_of_mem⟩, ?_, ?_⟩
    · exact heager.tiles.flatMap_part.trans part_all
    · intro cover hcover
      exact heager.length_le fits_within (Nat.le_refl 0) hcover.tiles hcover.fits
  · intro chunks h range hrange voices inputs hinputs
    rw [ElevenLabs.submitted_eq hinputs]
    exact sceneChunks_fits h hrange
  · intro chunks h range hrange voices request hrequest
    exact Nat.le_trans (Google.submitted_le hrequest) (sceneChunks_fits h hrange)

example : sceneChunks [⟨.host, "ab".toList, none, []⟩, ⟨.guest, "c".toList, some .sigh, []⟩,
    ⟨.host, "d".toList, none, []⟩] 11 ElevenLabs.sizedLen = .ok [⟨0, 2⟩, ⟨2, 3⟩] := by decide

end LensLM
