import Halon.Mero.TimeSpec

/-! Stored times are not read back: the check of the length is the wrong way round. -/

namespace Halon.Mero.TimeSpec
open parseJSON

def Integral (v : Value) : Prop := ∃ s : Scientific, v = .Number s ∧ s.floatingOrInteger.isSome

theorem withIntegral_parsed (expected : String) (integral : Integral v) :
    ∃ i, withIntegral expected v = .parsed i := by
  obtain ⟨s, rfl, whole⟩ := integral
  obtain ⟨i, found⟩ := Option.isSome_iff_exists.mp whole
  refine ⟨i, ?_⟩
  rw [withIntegral, found]

theorem withIntegral_refused (expected : String) (broken : ¬ Integral v) :
    ∃ actual, withIntegral expected v = .typeMismatch expected actual := by
  cases v with
  | Number s =>
    refine ⟨.Number s, ?_⟩
    cases found : s.floatingOrInteger with
    | none => rw [withIntegral, found]
    | some i => exact absurd ⟨s, rfl, Option.isSome_iff_exists.mpr ⟨i, found⟩⟩ broken
  | Object _ | Array _ | String _ | Bool _ | Null => exact ⟨_, rfl⟩

/-- The parser gives a time or a failure, and a time only for two whole numbers. -/
def Sound (a : List Value) : Prop :=
  parseJSON (.Array a) ≠ .outOfBounds ∧
    ∀ t, parseJSON (.Array a) = .parsed t → ∃ secs nsecs, a = [secs, nsecs] ∧ Integral secs ∧ Integral nsecs

variable {a : List Value}

theorem sound_of_mismatch (refused : parseJSON (.Array a) = .typeMismatch expected actual) :
    Sound a := by
  rw [Sound, refused]
  exact ⟨nofun, nofun⟩

theorem sound_two (two : a.length = 2) : Sound a := by
  apply sound_of_mismatch
  rw [parseJSON, if_neg (not_not_intro two)]

theorem parseJSON_single (first : Value) : parseJSON (.Array [first]) =
    (withIntegral "secs" first).bind fun _ => .outOfBounds := rfl

theorem parseJSON_longer (first second third : Value) (rest : List Value) :
    parseJSON (.Array (first :: second :: third :: rest)) =
      (withIntegral "secs" first).bind fun secs => (withIntegral "nsecs" second).bind fun nsecs => .parsed ⟨secs, nsecs⟩ := by
  rw [parseJSON, if_pos (by simp)]
  rfl

theorem sound_single (first : Value) : Sound [first] ↔ ¬ Integral first := by
  constructor
  · intro sound integral
    obtain ⟨i, parsed⟩ := withIntegral_parsed "secs" integral
    apply sound.1
    rw [parseJSON_single, parsed, Parsed.bind]
  · intro broken
    obtain ⟨_, refused⟩ := withIntegral_refused "secs" broken
    apply sound_of_mismatch
    rw [parseJSON_single, refused, Parsed.bind]

theorem sound_longer (first second third : Value) (rest : List Value) :
    Sound (first :: second :: third :: rest) ↔ ¬ Integral first ∨ ¬ Integral second := by
  by_cases integral : Integral first
  · obtain ⟨i, parsed⟩ := withIntegral_parsed "secs" integral
    rw [or_iff_right (not_not_intro integral)]
    constructor
    · intro sound whole
      obtain ⟨j, found⟩ := withIntegral_parsed "nsecs" whole
      obtain ⟨_, _, two, _⟩ := sound.2 ⟨i, j⟩ (by rw [parseJSON_longer, parsed, Parsed.bind, found, Parsed.bind])
      cases two
    · intro broken
      obtain ⟨_, refused⟩ := withIntegral_refused "nsecs" broken
      apply sound_of_mismatch
      rw [parseJSON_longer, parsed, Parsed.bind, refused, Parsed.bind]
  · obtain ⟨_, refused⟩ := withIntegral_refused "secs" integral
    refine iff_of_true ?_ (.inl integral)
    apply sound_of_mismatch
    rw [parseJSON_longer, refused, Parsed.bind]

/-- No stored time is read back, and which arrays are treated as they should be. -/
theorem timeSpec_lost (t : TimeSpec) (a : List Value) :
    parseJSON t.toJSON = .typeMismatch "TimeSpec" t.toJSON ∧
    (Sound a ↔ a.length = 2 ∨ (∃ first ∈ a[0]?, ¬ Integral first) ∨ 2 < a.length ∧ ∃ second ∈ a[1]?, ¬ Integral second) := by
  refine ⟨rfl, ?_⟩
  match a with
  | [] =>
    refine iff_of_false (fun sound => sound.1 rfl) ?_
    simp
  | [first] => simp [sound_single]
  | [_, _] => exact iff_of_true (sound_two rfl) (.inl rfl)
  | first :: second :: third :: rest => simp [sound_longer]

theorem timeSpec_misread : parseJSON (toJSON ⟨1, 0⟩) ≠ .parsed ⟨1, 0⟩ ∧ parseJSON (.Array []) = .outOfBounds ∧
    parseJSON (.Array [.Number ⟨1, 0⟩, .Number ⟨2, 0⟩, .Null]) = .parsed ⟨1, 2⟩ :=
  ⟨nofun, rfl, rfl⟩

end Halon.Mero.TimeSpec
