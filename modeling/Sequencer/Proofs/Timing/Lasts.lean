import Sequencer.Proofs.Playback.History
import Sequencer.Proofs.Timing.Duration

/-!
# Sequencer.Proofs.Timing.Lasts

`Lasts R n f σ a` is the specification that every part of a timed sequence meets: stepped in the
frames `f`, `f + 1` and so on, `a` is pending `n` times and then done, and each of these steps
invokes exactly what the cues `σ` have for its frame.

What is stepped differs (tasks, joins, runs, passes), so the way of stepping is a parameter. Two
lemmas relate the layers of the scheduler:

* `Lasts.simulate`: the outer layer steps the inner one, and is done when the inner one is;
* `Lasts.andThen`: the outer layer goes on within the step in which the inner one is done.
-/

namespace Sequencer

variable {H : Host}

/-! ### Cues of a frame -/

/-- The cue that an invocation meets. -/
def Invocation.cue (i : Invocation H) : Cue H := ⟨i.sequence, i.nested, i.position, i.frame⟩

/-- The cues of one frame. -/
def due (σ : List (Cue H)) (f : Nat) : List (Cue H) := σ.filter (·.frame == f)

@[simp] theorem due_append (σ τ : List (Cue H)) (f : Nat) :
    due (σ ++ τ) f = due σ f ++ due τ f :=
  List.filter_append σ τ

theorem due_eq_nil {σ : List (Cue H)} {f : Nat} (h : ∀ cue ∈ σ, cue.frame ≠ f) :
    due σ f = [] := by
  rw [due, List.filter_eq_nil_iff]
  intro cue hcue
  simpa using h cue hcue

/-! ### Stretches that play cues -/

namespace Playback

/-- The playback is in the middle of a step, and no stop has been requested. -/
def InFrame (pb : Playback H) (f : Nat) : Prop := pb.clock.frame = f ∧ pb.stopRequested = false

/-- A stretch in which exactly the nodes that the cues name are invoked, and no stop requested. -/
def Plays (pb : Playback H) (σ : List (Cue H)) (pb' : Playback H) : Prop :=
  (∃ is, pb.Stretch is pb' ∧ (is.map Invocation.cue).Perm σ) ∧
    pb'.stopRequested = pb.stopRequested

namespace Plays

theorem refl (pb : Playback H) : pb.Plays [] pb := ⟨⟨[], .refl pb, .nil⟩, rfl⟩

theorem trans {a b c : Playback H} {σ τ : List (Cue H)} (h : a.Plays σ b) (h' : b.Plays τ c) :
    a.Plays (σ ++ τ) c := by
  obtain ⟨⟨is, hs, hσ⟩, hstop⟩ := h
  obtain ⟨⟨js, hs', hτ⟩, hstop'⟩ := h'
  refine ⟨⟨js ++ is, hs.trans hs', ?_⟩, hstop'.trans hstop⟩
  rw [List.map_append]
  exact List.perm_append_comm.trans (hσ.append hτ)

theorem before {a b c : Playback H} {σ : List (Cue H)} (h : a.Plays [] b) (h' : b.Plays σ c) :
    a.Plays σ c :=
  h.trans h'

theorem after {a b c : Playback H} {σ : List (Cue H)} (h : a.Plays σ b) (h' : b.Plays [] c) :
    a.Plays σ c := by
  simpa using h.trans h'

theorem inFrame {a b : Playback H} {σ : List (Cue H)} {f : Nat} (h : a.Plays σ b)
    (hf : a.InFrame f) : b.InFrame f := by
  obtain ⟨⟨is, hs, -⟩, hstop⟩ := h
  exact ⟨hs.clock ▸ hf.1, hstop.trans hf.2⟩

/-- A stretch without invocations plays no cues. -/
theorem of_stretch {a b : Playback H} (h : a.Stretch [] b)
    (hstop : b.stopRequested = a.stopRequested) : a.Plays [] b :=
  ⟨⟨[], h, .nil⟩, hstop⟩

theorem record (pb : Playback H) {e : Event H} (hsignal : e.isSignal = false)
    (hinvoked : e.invocation? = none) : pb.Plays [] (pb.record e) := by
  have h := Stretch.record pb hsignal
  rw [hinvoked] at h
  exact of_stretch h rfl

theorem abandon (pb : Playback H) (tasks : List Held) : pb.Plays [] (pb.abandon tasks) :=
  of_stretch (.abandon pb tasks) (pb.abandon_stopRequested tasks)

end Plays

end Playback

/-! ### Lasting for a number of frames -/

/-- A way of stepping things: what a step of one comes to. -/
abbrev Stepping (H : Host) (α : Type) := α → Playback H → Progress → α → Playback H → Prop

/-- Stepped in frame `f` and the ones after it, `a` is pending `n` times and then done, and each
step plays the cues of its frame. -/
def Lasts {α : Type} (R : Stepping H α) : Nat → Nat → List (Cue H) → α → Prop
  | 0, f, σ, a => ∀ pb : Playback H, pb.InFrame f → ∃ a' pb',
      R a pb .done a' pb' ∧ pb.Plays (due σ f) pb'
  | n + 1, f, σ, a => ∀ pb : Playback H, pb.InFrame f → ∃ a' pb',
      R a pb .pending a' pb' ∧ pb.Plays (due σ f) pb' ∧ Lasts R n (f + 1) σ a'

/-- What is left after a step in frame `f`: nothing, or something that lasts one frame less. -/
def Leads {α : Type} (R : Stepping H α) (n f : Nat) (σ : List (Cue H)) (progress : Progress)
    (a : α) : Prop :=
  match n with
  | 0 => progress = .done
  | n + 1 => progress = .pending ∧ Lasts R n (f + 1) σ a

section

variable {α β : Type} {R : Stepping H α} {T : Stepping H β} {n m f : Nat} {σ τ : List (Cue H)}
  {a : α} {b : β}

theorem lasts_iff : Lasts R n f σ a ↔ ∀ pb : Playback H, pb.InFrame f → ∃ progress a' pb',
    R a pb progress a' pb' ∧ pb.Plays (due σ f) pb' ∧ Leads R n f σ progress a' := by
  cases n with
  | zero =>
      constructor
      · intro h pb hpb
        obtain ⟨a', pb', hR, hplays⟩ := h pb hpb
        exact ⟨.done, a', pb', hR, hplays, rfl⟩
      · intro h pb hpb
        obtain ⟨_, a', pb', hR, hplays, rfl⟩ := h pb hpb
        exact ⟨a', pb', hR, hplays⟩
  | succ n =>
      constructor
      · intro h pb hpb
        obtain ⟨a', pb', hR, hplays, hrest⟩ := h pb hpb
        exact ⟨.pending, a', pb', hR, hplays, rfl, hrest⟩
      · intro h pb hpb
        obtain ⟨_, a', pb', hR, hplays, rfl, hrest⟩ := h pb hpb
        exact ⟨a', pb', hR, hplays, hrest⟩

/-- Cues of earlier frames do not matter. -/
theorem Lasts.congr (h : Lasts R n f σ a) (heq : ∀ g, f ≤ g → due σ g = due τ g) :
    Lasts R n f τ a := by
  induction n generalizing f a with
  | zero =>
      intro pb hpb
      rw [← heq f (Nat.le_refl f)]
      exact h pb hpb
  | succ n ih =>
      intro pb hpb
      obtain ⟨a', pb', hR, hplays, hrest⟩ := h pb hpb
      rw [← heq f (Nat.le_refl f)]
      exact ⟨a', pb', hR, hplays, ih hrest fun g hg => heq g (by omega)⟩

theorem Leads.congr {progress : Progress} (h : Leads R n f σ progress a)
    (heq : ∀ g, f < g → due σ g = due τ g) : Leads R n f τ progress a := by
  cases n with
  | zero => exact h
  | succ n => exact ⟨h.1, h.2.congr heq⟩

theorem Leads.imp {progress : Progress} (h : Leads R n f σ progress a)
    (himp : ∀ {n f}, Lasts R n f σ a → Lasts T n f σ b) : Leads T n f σ progress b := by
  cases n with
  | zero => exact h
  | succ n => exact ⟨h.1, himp h.2⟩

/-- The outer thing `b` does nothing but to step the inner thing `a`. -/
theorem Lasts.simulate (L : α → β → Prop)
    (hstep : ∀ {a b}, L a b → ∀ pb, ∃ pb₀, pb.Plays [] pb₀ ∧
      ∀ {progress a' pb₁}, R a pb₀ progress a' pb₁ → ∃ b' pb', T b pb progress b' pb' ∧
        pb₁.Plays [] pb' ∧ (progress = .pending → L a' b'))
    (h : Lasts R n f σ a) (hab : L a b) : Lasts T n f σ b := by
  induction n generalizing f a b with
  | zero =>
      intro pb hpb
      obtain ⟨pb₀, hpb₀, hT⟩ := hstep hab pb
      obtain ⟨a', pb₁, hR, hplays⟩ := h pb₀ (hpb₀.inFrame hpb)
      obtain ⟨b', pb', hT, hpb', -⟩ := hT hR
      exact ⟨b', pb', hT, hpb₀.before (hplays.after hpb')⟩
  | succ n ih =>
      intro pb hpb
      obtain ⟨pb₀, hpb₀, hT⟩ := hstep hab pb
      obtain ⟨a', pb₁, hR, hplays, hrest⟩ := h pb₀ (hpb₀.inFrame hpb)
      obtain ⟨b', pb', hT, hpb', hab'⟩ := hT hR
      exact ⟨b', pb', hT, hpb₀.before (hplays.after hpb'), ih hrest (hab' rfl)⟩

/-- Within one step, `b` plays some cues and then goes on as something else does. -/
theorem Lasts.headed
    (hstep : ∀ pb : Playback H, pb.InFrame f → ∃ b₁ pb₁, pb.Plays (due σ f) pb₁ ∧
      Lasts T m f τ b₁ ∧ ∀ {progress b' pb'}, T b₁ pb₁ progress b' pb' → T b pb progress b' pb')
    (hσ : ∀ cue ∈ σ, cue.frame ≤ f) : Lasts T m f (σ ++ τ) b := by
  rw [lasts_iff]
  intro pb hpb
  obtain ⟨b₁, pb₁, hplays, hrest, hT⟩ := hstep pb hpb
  obtain ⟨progress, b', pb', hT₁, hplays', hleads⟩ := lasts_iff.mp hrest pb₁ (hplays.inFrame hpb)
  refine ⟨progress, b', pb', hT hT₁, ?_, hleads.congr fun g hg => ?_⟩
  · rw [due_append]
    exact hplays.trans hplays'
  · -- Nothing of `σ` is left for later frames.
    have hnil : due σ g = [] := due_eq_nil fun cue hcue => by
      have := hσ cue hcue
      omega
    rw [due_append, hnil, List.nil_append]

/-- The outer thing `b` steps the inner thing `a`, and within the step in which `a` is done it goes
on as something else does. -/
theorem Lasts.andThen (L : α → β → Prop) (next : β → Prop)
    (hpending : ∀ {a b}, L a b → ∀ pb, ∃ pb₀, pb.Plays [] pb₀ ∧
      ∀ {a' pb₁}, R a pb₀ .pending a' pb₁ → ∃ b', T b pb .pending b' pb₁ ∧ L a' b')
    (hdone : ∀ {a b}, L a b → ∀ pb, ∃ pb₀, pb.Plays [] pb₀ ∧
      ∀ {a' pb₁}, R a pb₀ .done a' pb₁ → ∃ b₁ pb₂, pb₁.Plays [] pb₂ ∧ next b₁ ∧
        ∀ {progress b' pb'}, T b₁ pb₂ progress b' pb' → T b pb progress b' pb')
    (h : Lasts R n f σ a) (hab : L a b) (hnext : ∀ {b}, next b → Lasts T m (f + n) τ b)
    (hσ : ∀ cue ∈ σ, cue.frame ≤ f + n) (hτ : ∀ cue ∈ τ, f + n ≤ cue.frame) :
    Lasts T (n + m) f (σ ++ τ) b := by
  induction n generalizing f a b with
  | zero =>
      rw [Nat.zero_add]
      -- `a` is done within this step, and the rest of the step belongs to what comes next.
      refine Lasts.headed (fun pb hpb => ?_) hσ
      obtain ⟨pb₀, hpb₀, hT⟩ := hdone hab pb
      obtain ⟨a', pb₁, hR, hplays⟩ := h pb₀ (hpb₀.inFrame hpb)
      obtain ⟨b₁, pb₂, hpb₂, hb₁, hT⟩ := hT hR
      exact ⟨b₁, pb₂, hpb₀.before (hplays.after hpb₂), hnext hb₁, hT⟩
  | succ n ih =>
      rw [Nat.add_right_comm]
      intro pb hpb
      obtain ⟨pb₀, hpb₀, hT⟩ := hpending hab pb
      obtain ⟨a', pb₁, hR, hplays, hrest⟩ := h pb₀ (hpb₀.inFrame hpb)
      obtain ⟨b', hT, hab'⟩ := hT hR
      -- The cues that follow are all later than this frame.
      have hnil : due τ f = [] := due_eq_nil fun cue hcue => by
        have := hτ cue hcue
        omega
      have hle : f + (n + 1) = f + 1 + n := by omega
      rw [hle] at hσ hτ
      refine ⟨b', pb₁, hT, ?_, ih hrest hab' (fun hb => hle ▸ hnext hb) hσ hτ⟩
      rw [due_append, hnil, List.append_nil]
      exact hpb₀.before hplays

end

end Sequencer
