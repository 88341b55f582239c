import Mathlib.Algebra.BigOperators.Group.List.Basic
import Mathlib.Algebra.Order.Group.Defs
import Mathlib.Data.Option.Basic
import Mathlib.Tactic.Abel
import Sequencer.Player.Backlog

/-!
# Sequencer.Proofs.Player.Backlog

What stepping through a backlog comes to, of whatever is stepped.

* `Rounds` are the steps that are taken, with a timestep off the backlog for each. The loop ends for
  one of two reasons: the limit is used up, or no further step is due (`drain_cases`).
* Where the backlog is a time of its own that steps leave alone (`Steady`), and times are those of
  an ordered group, an account can be kept (`Rounds.backlog_eq`), from one stretch of time to the
  next (`Course.balance`).
* Two things that agree in what they do agree in the steps they take (`Abreast.drain`), whatever
  their times are. So the time of the one may be exact where that of the other is rounded.
-/

namespace Sequencer

namespace Stepped

variable {σ τ : Type}

section Rounds

variable [LE τ] [Sub τ] {m : Stepped σ τ} {timestep zero : τ}

/-- Is another step due? -/
def Due (m : Stepped σ τ) (timestep : τ) (s : σ) : Prop :=
  timestep ≤ m.backlog s ∧ m.running s = true

/-- So many steps lead from the one state to the other, each of them when it is due. -/
inductive Rounds (m : Stepped σ τ) (timestep : τ) : Nat → σ → σ → Prop
  | none (s : σ) : Rounds m timestep 0 s s
  | next {n : Nat} {s s' s'' : σ} : m.Due timestep s →
      m.step (m.withBacklog s (m.backlog s - timestep)) = some s' → Rounds m timestep n s' s'' →
      Rounds m timestep (n + 1) s s''

theorem Rounds.running {n : Nat} {s s' : σ} (h : m.Rounds timestep n s s')
    (hrunning : m.running s' = true) : m.running s = true := by
  cases h with
  | none => exact hrunning
  | next hdue _ _ => exact hdue.2

variable [DecidableLE τ]

theorem drain_of_due {s : σ} (hdue : m.Due timestep s) (steps allowed : Nat) :
    m.drain timestep zero steps (allowed + 1) s
      = (m.step (m.withBacklog s (m.backlog s - timestep))).bind
          (m.drain timestep zero (steps + 1) allowed) := by
  rw [drain, if_pos (show timestep ≤ m.backlog s ∧ m.running s = true from hdue)]
  rcases m.step (m.withBacklog s (m.backlog s - timestep)) with _ | s' <;> rfl

theorem drain_of_not_due {s : σ} (hdue : ¬ m.Due timestep s) (steps allowed : Nat) :
    m.drain timestep zero steps (allowed + 1) s = some ⟨s, steps, none⟩ := by
  rw [drain, if_neg (show ¬(timestep ≤ m.backlog s ∧ m.running s = true) from hdue)]

/-- What a function does that a step commutes with, and that leaves the backlog alone, all steps
through a backlog commute with. -/
theorem drain_map (m : Stepped σ τ) (f : σ → σ) (hrunning : ∀ s, m.running (f s) = m.running s)
    (hbacklog : ∀ s, m.backlog (f s) = m.backlog s)
    (hwith : ∀ s b, m.withBacklog (f s) b = f (m.withBacklog s b))
    (hstep : ∀ s, m.step (f s) = (m.step s).map f) (timestep zero : τ) (steps allowed : Nat)
    (state : σ) :
    m.drain timestep zero steps allowed (f state)
      = (m.drain timestep zero steps allowed state).map fun d => { d with state := f d.state } := by
  induction allowed generalizing state steps with
  | zero => simp [drain, hbacklog, hwith]
  | succ allowed ih =>
      have hsame : m.Due timestep (f state) ↔ m.Due timestep state := by
        rw [Due, Due, hbacklog, hrunning]
      by_cases hdue : m.Due timestep state
      · rw [drain_of_due (hsame.mpr hdue), drain_of_due hdue, hbacklog, hwith, hstep]
        rcases m.step (m.withBacklog state (m.backlog state - timestep)) with _ | next
        · rfl
        · exact ih (steps + 1) next
      · rw [drain_of_not_due (mt hsame.mp hdue), drain_of_not_due hdue]
        rfl

/-- All allowed steps are taken, and the rest of the backlog is given up; or no further step is due
before that. -/
theorem drain_cases {steps allowed : Nat} {s : σ} {d : Drained σ τ}
    (h : m.drain timestep zero steps allowed s = some d) :
    ∃ n s', m.Rounds timestep n s s' ∧
      (n = allowed ∧ d = ⟨m.withBacklog s' zero, steps + n, some (m.backlog s')⟩ ∨
        n < allowed ∧ ¬ m.Due timestep s' ∧ d = ⟨s', steps + n, none⟩) := by
  induction allowed generalizing s steps with
  | zero =>
      rw [drain] at h
      exact ⟨0, s, .none s, .inl ⟨rfl, (Option.some.inj h).symm⟩⟩
  | succ allowed ih =>
      by_cases hdue : m.Due timestep s
      · rw [drain_of_due hdue] at h
        obtain ⟨s₁, hstep, hrest⟩ := Option.bind_eq_some_iff.mp h
        obtain ⟨n, s', hrounds, hend⟩ := ih hrest
        refine ⟨n + 1, s', .next hdue hstep hrounds, ?_⟩
        rw [Nat.add_left_inj, Nat.add_lt_add_iff_right, ← Nat.add_assoc, Nat.add_right_comm]
        exact hend
      · rw [drain_of_not_due hdue] at h
        exact ⟨0, s, .none s, .inr ⟨Nat.succ_pos allowed, hdue, (Option.some.inj h).symm⟩⟩

/-- Lets time pass: it is added to the backlog, and that is stepped through. -/
def elapse [Add τ] (m : Stepped σ τ) (timestep zero : τ) (allowed : Nat) (time : τ) (s : σ) :
    Option (Drained σ τ) :=
  m.drain timestep zero 0 allowed (m.withBacklog s (m.backlog s + time))

theorem elapse_cases [Add τ] {allowed : Nat} {time : τ} {s : σ} {d : Drained σ τ}
    (h : m.elapse timestep zero allowed time s = some d) :
    ∃ s', m.Rounds timestep d.steps (m.withBacklog s (m.backlog s + time)) s' ∧
      (d.steps = allowed ∧ d.state = m.withBacklog s' zero ∧ d.dropped = some (m.backlog s') ∨
        d.steps < allowed ∧ ¬ m.Due timestep s' ∧ d.state = s' ∧ d.dropped = none) := by
  obtain ⟨n, s', hrounds, hend⟩ := drain_cases h
  rw [Nat.zero_add] at hend
  rcases hend with ⟨hall, rfl⟩ | ⟨hfewer, hdue, rfl⟩
  · exact ⟨s', hrounds, .inl ⟨hall, rfl, rfl⟩⟩
  · exact ⟨s', hrounds, .inr ⟨hfewer, hdue, rfl, rfl⟩⟩

end Rounds

/-! ### The account of time -/

/-- The backlog is a time of its own. It has nothing to do with whether steps are taken, and a step
leaves it alone unless it is the last one. -/
structure Steady (m : Stepped σ τ) : Prop where
  backlog_withBacklog : ∀ s b, m.backlog (m.withBacklog s b) = b
  running_withBacklog : ∀ s b, m.running (m.withBacklog s b) = m.running s
  backlog_step : ∀ s s', m.step s = some s' → m.running s' = true → m.backlog s' = m.backlog s

/-- What happened when time passed: the time, the most steps that were allowed, the steps taken, and
the backlog before and after that. -/
structure Stint (τ : Type) where
  time : τ
  allowed : Nat
  steps : Nat
  before : τ
  after : τ

section Account

variable [AddCommGroup τ] [LinearOrder τ]

namespace Stint

/-- The time that is left when the steps are taken. -/
def remainder (timestep : τ) (u : Stint τ) : τ := u.before + u.time - u.steps • timestep

/-- The time that was given up. -/
def lost (timestep : τ) (u : Stint τ) : τ := u.remainder timestep - u.after

/-- Either fewer steps were taken than were allowed, and the whole remainder is kept, which is less
than a timestep; or all of them were taken, and the whole remainder is given up. -/
structure Sound (timestep : τ) (u : Stint τ) : Prop where
  steps_le : u.steps ≤ u.allowed
  remainder_nonneg : 0 ≤ u.remainder timestep
  kept : u.steps < u.allowed → u.after = u.remainder timestep ∧ u.after < timestep
  spent : u.steps = u.allowed → u.after = 0

namespace Sound

variable {timestep : τ} {u : Stint τ}

theorem after_nonneg (h : u.Sound timestep) : 0 ≤ u.after := by
  rcases h.steps_le.lt_or_eq with hfewer | hall
  · rw [(h.kept hfewer).1]
    exact h.remainder_nonneg
  · exact (h.spent hall).ge

theorem lost_nonneg [IsOrderedAddMonoid τ] (h : u.Sound timestep) : 0 ≤ u.lost timestep := by
  rw [Stint.lost, sub_nonneg]
  rcases h.steps_le.lt_or_eq with hfewer | hall
  · exact (h.kept hfewer).1.le
  · rw [h.spent hall]
    exact h.remainder_nonneg

/-- The remainder is kept if a step is left over, or if there is nothing to keep. -/
theorem after_eq_iff (h : u.Sound timestep) :
    u.after = u.remainder timestep ↔ u.steps < u.allowed ∨ u.remainder timestep = 0 := by
  constructor
  · intro hkept
    rcases h.steps_le.lt_or_eq with hfewer | hall
    · exact .inl hfewer
    · exact .inr (hkept.symm.trans (h.spent hall))
  · rintro (hfewer | hnothing)
    · exact (h.kept hfewer).1
    · rcases h.steps_le.lt_or_eq with hfewer | hall
      · exact (h.kept hfewer).1
      · rw [h.spent hall, hnothing]

end Sound

end Stint

variable {m : Stepped σ τ} {timestep : τ}

/-- Time passes again and again, and steps are taken to the end. -/
inductive Course (m : Stepped σ τ) (timestep : τ) : σ → List (Stint τ) → σ → Prop
  | none (s : σ) : Course m timestep s [] s
  | next {s s' : σ} {d : Drained σ τ} {time : τ} {allowed : Nat} {stints : List (Stint τ)} :
      m.elapse timestep 0 allowed time s = some d → m.running d.state = true →
      Course m timestep d.state stints s' →
      Course m timestep s
        (⟨time, allowed, d.steps, m.backlog s, m.backlog d.state⟩ :: stints) s'

theorem Rounds.backlog_eq (hm : m.Steady) {n : Nat} {s s' : σ} (h : m.Rounds timestep n s s')
    (hrunning : m.running s' = true) : m.backlog s = n • timestep + m.backlog s' := by
  induction h with
  | none s => rw [zero_nsmul, zero_add]
  | @next n s s₁ s' _ hstep hrest ih =>
      have hafter : m.backlog s₁ = m.backlog s - timestep := by
        rw [hm.backlog_step _ _ hstep (hrest.running hrunning), hm.backlog_withBacklog]
      calc m.backlog s = m.backlog s₁ + timestep := by rw [hafter, sub_add_cancel]
        _ = (n + 1) • timestep + m.backlog s' := by rw [ih hrunning, succ_nsmul]; abel

variable [IsOrderedAddMonoid τ]

theorem Rounds.backlog_nonneg (hm : m.Steady) {n : Nat} {s s' : σ} (h : m.Rounds timestep n s s')
    (hrunning : m.running s' = true) (hs : 0 ≤ m.backlog s) : 0 ≤ m.backlog s' := by
  induction h with
  | none s => exact hs
  | @next n s s₁ s' hdue hstep hrest ih =>
      refine ih hrunning ?_
      rw [hm.backlog_step _ _ hstep (hrest.running hrunning), hm.backlog_withBacklog]
      exact sub_nonneg.mpr hdue.1

/-- The account of one stretch of time. -/
theorem elapse_sound (hm : m.Steady) {allowed : Nat} {time : τ} {s : σ} {d : Drained σ τ}
    (h : m.elapse timestep 0 allowed time s = some d) (hrunning : m.running d.state = true)
    (hs : 0 ≤ m.backlog s) (htime : 0 ≤ time) :
    (Stint.mk time allowed d.steps (m.backlog s) (m.backlog d.state)).Sound timestep := by
  obtain ⟨s', hrounds, hend⟩ := elapse_cases h
  have hcredit := hm.backlog_withBacklog s (m.backlog s + time)
  have hrunning' : m.running s' = true := by
    rcases hend with ⟨-, hstate, -⟩ | ⟨-, -, hstate, -⟩
    · rwa [hstate, hm.running_withBacklog] at hrunning
    · rwa [hstate] at hrunning
  have hrest : 0 ≤ m.backlog s' := by
    refine hrounds.backlog_nonneg hm hrunning' ?_
    rw [hcredit]
    exact add_nonneg hs htime
  have hremainder : m.backlog s + time - d.steps • timestep = m.backlog s' := by
    rw [← hcredit, hrounds.backlog_eq hm hrunning', add_sub_cancel_left]
  rcases hend with ⟨hall, hstate, -⟩ | ⟨hfewer, hdue, hstate, -⟩
  · refine ⟨hall.le, hrest.trans hremainder.ge, fun hlt => absurd hall hlt.ne, fun _ => ?_⟩
    rw [hstate]
    exact hm.backlog_withBacklog s' 0
  · have hlt : m.backlog s' < timestep := not_le.mp fun hle => hdue ⟨hle, hrunning'⟩
    refine ⟨hfewer.le, hrest.trans hremainder.ge, fun _ => ?_, fun hall => absurd hall hfewer.ne⟩
    rw [hstate]
    exact ⟨hremainder.symm, hlt⟩

namespace Course

variable {s s' : σ} {stints : List (Stint τ)}

theorem sound (hm : m.Steady) (h : m.Course timestep s stints s') (hs : 0 ≤ m.backlog s)
    (htime : ∀ u ∈ stints, 0 ≤ u.time) : ∀ u ∈ stints, u.Sound timestep := by
  induction h with
  | none => simp
  | next helapse hrunning _ ih =>
      obtain ⟨hfirst, hrest⟩ := List.forall_mem_cons.mp htime
      have hsound := elapse_sound hm helapse hrunning hs hfirst
      exact List.forall_mem_cons.mpr ⟨hsound, ih hsound.after_nonneg hrest⟩

omit [IsOrderedAddMonoid τ] in
/-- No time is unaccounted for: it is stepped through, or kept, or lost. -/
theorem balance (h : m.Course timestep s stints s') :
    m.backlog s + (stints.map (·.time)).sum
      = (stints.map (·.steps)).sum • timestep + m.backlog s'
        + (stints.map (Stint.lost timestep)).sum := by
  induction h with
  | none => simp
  | @next s s' d time allowed stints _ _ _ ih =>
      let u : Stint τ := ⟨time, allowed, d.steps, m.backlog s, m.backlog d.state⟩
      have hfirst : m.backlog s + time
          = d.steps • timestep + m.backlog d.state + u.lost timestep := by
        simp only [u, Stint.lost, Stint.remainder]
        abel
      simp only [List.map_cons, List.sum_cons, add_nsmul]
      calc m.backlog s + (time + (stints.map (·.time)).sum)
          = d.steps • timestep + u.lost timestep
            + (m.backlog d.state + (stints.map (·.time)).sum) := by rw [← add_assoc, hfirst]; abel
        _ = _ := by rw [ih]; abel

end Course

end Account

/-! ### Two of them -/

section Abreast

variable {σ' τ' : Type} [LE τ] [DecidableLE τ] [Sub τ] [LE τ'] [DecidableLE τ'] [Sub τ']

/-- Two things that are stepped side by side: `R` holds between their states, and `S` between their
times. -/
structure Abreast (m : Stepped σ τ) (m' : Stepped σ' τ') (R : σ → σ' → Prop)
    (S : τ → τ' → Prop) : Prop where
  running : ∀ {s s'}, R s s' → m.running s = m'.running s'
  backlog : ∀ {s s'}, R s s' → S (m.backlog s) (m'.backlog s')
  withBacklog : ∀ {s s' b b'}, R s s' → S b b' → R (m.withBacklog s b) (m'.withBacklog s' b')
  step : ∀ {s s'}, R s s' → m.running s = true → Option.Rel R (m.step s) (m'.step s')

/-- The times agree on when a timestep is up, and can be taken off. -/
structure Counts (S : τ → τ' → Prop) (timestep : τ) (timestep' : τ') : Prop where
  le_iff : ∀ {b b'}, S b b' → (timestep ≤ b ↔ timestep' ≤ b')
  sub : ∀ {b b'}, S b b' → timestep ≤ b → S (b - timestep) (b' - timestep')

/-- Two outcomes that agree. -/
structure Drained.Agrees (R : σ → σ' → Prop) (S : τ → τ' → Prop) (d : Drained σ τ)
    (d' : Drained σ' τ') : Prop where
  state : R d.state d'.state
  steps : d.steps = d'.steps
  dropped : Option.Rel S d.dropped d'.dropped

theorem rel_bind {α α' β β' : Type} {R : α → α' → Prop} {S : β → β' → Prop} {o : Option α}
    {o' : Option α'} {f : α → Option β} {f' : α' → Option β'} (h : Option.Rel R o o')
    (hf : ∀ a a', R a a' → Option.Rel S (f a) (f' a')) : Option.Rel S (o.bind f) (o'.bind f') := by
  cases h with
  | none => exact .none
  | some hvalues => exact hf _ _ hvalues

theorem rel_map_left {α α' β : Type} {R : α → α' → Prop} {S : β → α' → Prop} {o : Option α}
    {o' : Option α'} {f : α → β} (h : Option.Rel R o o') (hf : ∀ a a', R a a' → S (f a) a') :
    Option.Rel S (o.map f) o' := by
  cases h with
  | none => exact .none
  | some hvalues => exact .some (hf _ _ hvalues)

theorem Abreast.drain {m : Stepped σ τ} {m' : Stepped σ' τ'} {R : σ → σ' → Prop}
    {S : τ → τ' → Prop} (hm : m.Abreast m' R S)
    (hrunning : ∀ s b, m.running (m.withBacklog s b) = m.running s) {timestep zero : τ}
    {timestep' zero' : τ'} (hcounts : Counts S timestep timestep') (hzero : S zero zero') {s : σ}
    {s' : σ'} (hs : R s s') (steps allowed : Nat) :
    Option.Rel (Drained.Agrees R S) (m.drain timestep zero steps allowed s)
      (m'.drain timestep' zero' steps allowed s') := by
  induction allowed generalizing s s' steps with
  | zero => exact .some ⟨hm.withBacklog hs hzero, rfl, .some (hm.backlog hs)⟩
  | succ allowed ih =>
      have hagree : m.Due timestep s ↔ m'.Due timestep' s' := by
        rw [Due, Due, hm.running hs, hcounts.le_iff (hm.backlog hs)]
      by_cases hdue : m.Due timestep s
      · rw [drain_of_due hdue, drain_of_due (hagree.mp hdue)]
        have hcharged := hm.withBacklog hs (hcounts.sub (hm.backlog hs) hdue.1)
        have hstill := (hrunning s (m.backlog s - timestep)).trans hdue.2
        exact rel_bind (hm.step hcharged hstill) fun _ _ hnext => ih hnext (steps + 1)
      · rw [drain_of_not_due hdue, drain_of_not_due (mt hagree.mpr hdue)]
        exact .some ⟨hs, rfl, .none⟩

end Abreast

end Stepped

end Sequencer
