import Mathlib.Data.List.Perm.Subperm
import Sequencer.Proofs.Ron.Coding
import Sequencer.Proofs.Ron.Standard
import Sequencer.Settings.Ron

/-!
# Sequencer.Proofs.Settings

Settings are read as they were written, by every lawful library, and no newer ones than the current
version.

* `knows_parts`: each field of settings is read as a change that copies that field (`copy`);
* `onto`: settings with some fields of others, which is what the copies of these fields come to
  (`foldl_copy`);
* `parse_chosen`: any choice of the fields in any order is read as those fields of the settings, and
  the defaults of the others.
-/

namespace Sequencer.Settings

open Ron

/-- Copies the field with a name. -/
def copy (s : Settings) (name : String) (t : Settings) : Settings :=
  if name = "version" then { t with version := s.version }
  else if name = "time_scale" then { t with timeScale := s.timeScale }
  else if name = "fixed_timestep" then { t with fixedTimestep := s.fixedTimestep }
  else if name = "max_steps_per_update" then { t with maxStepsPerUpdate := s.maxStepsPerUpdate }
  else t

/-- The fields with certain names from some settings, the others from others. -/
def onto (s : Settings) (names : List String) (t : Settings) : Settings where
  version := if "version" ∈ names then s.version else t.version
  timeScale := if "time_scale" ∈ names then s.timeScale else t.timeScale
  fixedTimestep := if "fixed_timestep" ∈ names then s.fixedTimestep else t.fixedTimestep
  maxStepsPerUpdate :=
    if "max_steps_per_update" ∈ names then s.maxStepsPerUpdate else t.maxStepsPerUpdate

theorem onto_cons (s : Settings) (name : String) (names : List String) (t : Settings) :
    s.onto (name :: names) t = s.onto names (s.copy name t) := by
  rw [copy]
  split_ifs with hversion hscale htimestep hsteps
  · subst hversion; simp [onto]
  · subst hscale; simp [onto]
  · subst htimestep; simp [onto]
  · subst hsteps; simp [onto]
  · simp [onto, Ne.symm hversion, Ne.symm hscale, Ne.symm htimestep, Ne.symm hsteps]

/-- Copying fields one after another comes to having them all. -/
theorem foldl_copy (s : Settings) (names : List String) (t : Settings) :
    (names.map s.copy).foldl (fun t change => change t) t = s.onto names t := by
  induction names generalizing t with
  | nil => simp [onto]
  | cons name names ih => rw [List.map_cons, List.foldl_cons, ih, onto_cons]

/-- With all of their fields, settings are themselves. -/
theorem onto_all (s t : Settings) : s.onto (parts.map (·.name)) t = s := by
  simp [onto, parts, Coding.Part.of]

/-! ### Reading -/

theorem beq_self_iff (s : Settings) :
    (s == s) = true ↔
      (s.timeScale == s.timeScale) = true ∧
        ∀ timestep, s.fixedTimestep = some timestep → (timestep == timestep) = true := by
  change (s.version == s.version && s.timeScale == s.timeScale
    && s.fixedTimestep == s.fixedTimestep && s.maxStepsPerUpdate == s.maxStepsPerUpdate) = true ↔ _
  cases s.fixedTimestep <;> simp

/-- Every field of settings without a NaN is known, and read as a copy of the field. -/
theorem knows_parts {s : Settings} (h : (s == s) = true) :
    ∀ field ∈ Coding.fields parts s, Coding.Knows parts field (s.copy field.1) := by
  obtain ⟨hscale, htimestep⟩ := (beq_self_iff s).mp h
  have hversion : Coding.Knows parts ("version", Coding.u32.write s.version) _ :=
    Coding.knows_of (Coding.carries_u32 s.version) rfl
  have hscale : Coding.Knows parts ("time_scale", Coding.single.write s.timeScale) _ :=
    Coding.knows_of (Coding.carries_single hscale) rfl
  have hfixed :
      Coding.Knows parts ("fixed_timestep", Coding.double.option.write s.fixedTimestep) _ :=
    Coding.knows_of
      (Coding.carries_option fun timestep heq => Coding.carries_double (htimestep timestep heq))
      rfl
  have hsteps :
      Coding.Knows parts ("max_steps_per_update", Coding.u32.write s.maxStepsPerUpdate) _ :=
    Coding.knows_of (Coding.carries_u32 s.maxStepsPerUpdate) rfl
  simp only [Coding.fields, parts, Coding.Part.of, List.map_cons, List.map_nil,
    List.forall_mem_cons]
  exact ⟨hversion, hscale, hfixed, hsteps, List.forall_mem_nil _⟩

theorem readable_coding : coding.shape.Readable := by decide +kernel

/-- **Fields in any order.** Any of the fields of settings without a NaN, in any order, can be
written, and every text of them is read as the settings that have these fields, and the defaults of
the others. -/
theorem parse_chosen {ron : Library} {Spells : Datum → String → Prop} (laws : ron.Lawful Spells)
    {s : Settings} (h : (s == s) = true) {chosen : List (String × Datum)}
    (hchosen : chosen.Subperm (Coding.fields parts s)) :
    (∃ text, Spells (.record recordName chosen) text) ∧
    ∀ text, Spells (.record recordName chosen) text →
      coding.parse ron text = some (s.onto (chosen.map (·.1)) {}) := by
  have hknows : ∀ field ∈ chosen, Coding.Knows parts field (s.copy field.1) :=
    fun field hfield => knows_parts h field (hchosen.subset hfield)
  have hnodup : (chosen.map (·.1)).Nodup := by
    obtain ⟨sub, hperm, hsub⟩ := hchosen
    refine (hperm.map (·.1)).nodup_iff.mp ((hsub.map (·.1)).nodup ?_)
    rw [Coding.map_fst_fields]
    simp [parts, Coding.Part.of]
  have hfits : Fits coding.shape (.record recordName chosen) :=
    Coding.fits_record (fun field hfield => ⟨_, hknows field hfield⟩) hnodup recordName
  have hread : coding.read? (.record recordName chosen) = some (s.onto (chosen.map (·.1)) {}) := by
    have hchanges : List.Forall₂ (Coding.Knows parts) chosen ((chosen.map (·.1)).map s.copy) := by
      rw [List.map_map, List.forall₂_map_right_iff, List.forall₂_same]
      exact hknows
    rw [← foldl_copy]
    exact Coding.readFields?_of_knows hchanges hnodup {}
  refine ⟨?_, fun text hspells => ?_⟩
  · obtain ⟨text, -, hspells⟩ := laws.print_spells readable_coding hfits true
    exact ⟨text, hspells⟩
  · rw [Coding.parse, laws.parse_spelled readable_coding hfits hspells, Option.bind_some, hread]

/-- **Reading settings.** For settings without a NaN, and every lawful library:

* they are written, and their own text is read as the settings if their version is the current one
  or older, and refused otherwise, by both versions;
* a record of any of their fields, in any order, can be written, and every text of it is read as the
  settings with these fields and the defaults of the others, and refused exactly if it states a
  newer version;

and no text whatsoever is read as settings of a newer version, whatever the library does. -/
theorem ofRon_written {ron : Library} {Spells : Datum → String → Prop} (laws : ron.Lawful Spells)
    (s : Settings) (h : (s == s) = true) :
    (∃ text, s.toRon ron = .ok text ∧
      ofRon ron text
        = if s.version ≤ 1 then .ok s else .error (.unsupportedVersion s.version 1)) ∧
    (∀ chosen : List (String × Datum), chosen.Subperm (Coding.fields parts s) →
      (∃ text, Spells (.record "PlayerSettings" chosen) text) ∧
      ∀ text, Spells (.record "PlayerSettings" chosen) text →
        ofRon ron text
          = if "version" ∈ chosen.map (·.1) ∧ 1 < s.version then
              .error (.unsupportedVersion s.version 1)
            else .ok (s.onto (chosen.map (·.1)) {})) ∧
    ∀ (other : Library) text t, ofRon other text = .ok t → t.version ≤ 1 := by
  refine ⟨?own, fun chosen hsub => ?chosen, fun other text t hread => ?any⟩
  case own =>
    have hall : (Coding.fields parts s).Subperm (Coding.fields parts s) := List.Subperm.refl _
    have hfits : Fits coding.shape (coding.write s) :=
      Coding.fits_record (fun field hfield => ⟨_, knows_parts h field hfield⟩)
        (by rw [Coding.map_fst_fields]; simp [parts, Coding.Part.of]) recordName
    obtain ⟨text, hprint, hspells⟩ := laws.print_spells readable_coding hfits true
    have hparse := (parse_chosen laws h hall).2 text hspells
    rw [Coding.map_fst_fields, onto_all] at hparse
    refine ⟨text, by rw [toRon, Coding.print, hprint], ?_⟩
    rw [ofRon, hparse]
    change s.checkVersion = _
    rw [checkVersion, currentVersion]
    by_cases hversion : s.version ≤ 1
    · rw [if_pos hversion, if_neg (UInt32.not_lt.mpr hversion)]
    · rw [if_neg hversion, if_pos (UInt32.not_le.mp hversion)]
  case chosen =>
    obtain ⟨hexists, hparse⟩ := parse_chosen laws h hsub
    refine ⟨hexists, fun text hspells => ?_⟩
    rw [ofRon, hparse text hspells]
    change (s.onto (chosen.map (·.1)) {}).checkVersion = _
    rw [checkVersion, currentVersion]
    by_cases hversion : "version" ∈ chosen.map (·.1)
    · simp [onto, hversion]
    · simp [onto, hversion]
  case any =>
    rw [ofRon] at hread
    split at hread
    next => cases hread
    next found _ =>
      rw [checkVersion, currentVersion] at hread
      split at hread
      next => cases hread
      next hversion =>
        obtain rfl := Except.ok.inj hread
        exact UInt32.not_lt.mp hversion

/-- Settings of a replay in slow motion. -/
def slowMotion : Settings :=
  { timeScale := 0.5, fixedTimestep := some 0.02, maxStepsPerUpdate := 4 }

/-- The replay's settings are read back; from their last two fields alone, and in the opposite
order, the time scale is that of the default. -/
theorem ofRon_written_slowMotion :
    (slowMotion == slowMotion) = true ∧
    (∃ text, slowMotion.toRon standard = .ok text ∧ ofRon standard text = .ok slowMotion) ∧
    ∃ text,
      Spelled (.record "PlayerSettings" ((Coding.fields parts slowMotion).reverse.take 2)) text ∧
      ofRon standard text = .ok { slowMotion with timeScale := 1.0 } := by
  have hproper : (slowMotion == slowMotion) = true := by decide +kernel
  obtain ⟨⟨own, hprint, hown⟩, hchosen, -⟩ := ofRon_written lawful_standard slowMotion hproper
  have hsub : ((Coding.fields parts slowMotion).reverse.take 2).Subperm
      (Coding.fields parts slowMotion) :=
    (List.take_sublist 2 _).subperm.trans (List.reverse_perm _).subperm
  obtain ⟨⟨text, hspells⟩, hread⟩ := hchosen _ hsub
  have hlast := hread text hspells
  rw [if_neg (fun hnewer => absurd hnewer.2 (by decide))] at hlast
  rw [if_pos (by decide)] at hown
  refine ⟨hproper, ⟨own, hprint, hown⟩, text, hspells, hlast.trans (congrArg Except.ok ?_)⟩
  simp [onto, Coding.fields, parts, Coding.Part.of, slowMotion]

end Sequencer.Settings
