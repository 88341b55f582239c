import Sequencer.Proofs.Timing.Runs

/-!
# Sequencer.Proofs.Timing.Loops

A nested sequence lasts as long as its passes together, each of which begins within the step in
which the one before it is done. With this, every node of a timed sequence lasts as long as it
should, and so does the run of the whole sequence (`run_lasts`). The proof is by induction on the
size of the sequence, since what a sequence nests is smaller.
-/

namespace Sequencer

variable {H : Host} {n f : Nat} {σ : List (Cue H)}

/-! ### Passes -/

namespace Passes

/-- A nested sequence goes on with its passes. -/
def Steps (ticket : Nat) : Stepping H (Passes H (Task H)) :=
  fun p pb progress p' pb' => (Job.passes ticket p pb progress p' pb').Returns

/-- The pass that the next poll goes on with. -/
def next (p : Passes H (Task H)) : SequenceRun H := p.run.getD (.new p.sequence p.identity)

/-- A loop over `inner` with so many passes left behind the next one. -/
structure Ahead (p : Passes H (Task H)) (inner : Sequence H) (identity : NestedId) (left : Nat) :
    Prop where
  sequence : p.sequence = inner
  identity : p.identity = identity
  loops : ∃ count inRange, p.loops = .times count inRange ∧ p.completed + left + 1 = count

variable {p : Passes H (Task H)} {inner : Sequence H} {identity : NestedId} {ticket left : Nat}

theorem current_eq (p : Passes H (Task H)) (ticket : Nat) (pb : Playback H) :
    ∃ suspended pb₀, p.current ticket pb = (p.next, suspended, pb₀) ∧ pb.Plays [] pb₀ := by
  unfold current next
  cases p.run with
  | none => exact ⟨_, _, rfl, .record pb rfl rfl⟩
  | some run => exact ⟨_, _, rfl, .refl pb⟩

theorem plays_closePass (ticket : Nat) (p : Passes H (Task H)) (run : SequenceRun H)
    (pb : Playback H) : pb.Plays [] (p.closePass ticket run pb) :=
  (Playback.Plays.abandon pb run.held).before (.record _ rfl rfl)

namespace Ahead

/-- No count is cut: the passes of a loop fit into the range of the counter. -/
theorem completed (h : p.Ahead inner identity left) (suspended : Bool) :
    (p.completePass suspended).completed = p.completed + 1 := by
  obtain ⟨count, inRange, -, hcount⟩ := h.loops
  simp only [completePass, maxCompleted]
  omega

theorem finish (h : p.Ahead inner identity 0) (suspended : Bool) :
    continuation p.loops (p.completePass suspended).completed suspended = .finish := by
  rw [h.completed]
  obtain ⟨count, inRange, hloops, hcount⟩ := h.loops
  have hle : count ≤ p.completed + 1 := by omega
  simp only [hloops, continuation, if_pos hle]

theorem again (h : p.Ahead inner identity (left + 1)) (suspended : Bool) :
    continuation p.loops (p.completePass suspended).completed suspended = .again := by
  rw [h.completed]
  obtain ⟨count, inRange, hloops, hcount⟩ := h.loops
  have hlt : ¬ count ≤ p.completed + 1 := by omega
  simp only [hloops, continuation, if_neg hlt]

theorem completePass (h : p.Ahead inner identity (left + 1)) (suspended : Bool) :
    (p.completePass suspended).Ahead inner identity left := by
  obtain ⟨count, inRange, hloops, hcount⟩ := h.loops
  refine ⟨h.sequence, h.identity, count, inRange, hloops, ?_⟩
  rw [h.completed]
  omega

end Ahead

end Passes

section

variable {inner : Sequence H} {identity : NestedId} {ticket left : Nat} {p : Passes H (Task H)}

/-- The cues of so many passes, of which the first one begins in step `frame`. -/
def Sequence.loopCues (inner : Sequence H) (identity : NestedId) (count frame : Nat) :
    List (Cue H) :=
  (List.range count).flatMap fun pass => inner.cues identity (frame + pass * inner.duration)

theorem Sequence.loopCues_succ (inner : Sequence H) (identity : NestedId) (count frame : Nat) :
    inner.loopCues identity (count + 1) frame =
      inner.cues identity frame ++ inner.loopCues identity count (frame + inner.duration) := by
  have hnext : ∀ pass, frame + (pass + 1) * inner.duration
      = frame + inner.duration + pass * inner.duration := by
    intro pass
    rw [Nat.add_mul, Nat.one_mul]
    omega
  simp only [loopCues, List.range_succ_eq_map, List.flatMap_cons, List.flatMap_map,
    Nat.succ_eq_add_one, hnext, Nat.zero_mul, Nat.add_zero]

theorem Sequence.le_of_mem_loopCues {count frame : Nat} {cue : Cue H}
    (h : cue ∈ inner.loopCues identity count frame) : frame ≤ cue.frame := by
  obtain ⟨pass, -, hcue⟩ := List.mem_flatMap.mp h
  exact Nat.le_trans (Nat.le_add_right frame _) (inner.cues_within identity _ cue hcue).1

open Passes

/-- The passes of a loop follow one another. The next one, or the rest of it, lasts `n` frames. -/
theorem passes_last
    (hinner : ∀ f, Lasts Run.Steps inner.duration f (inner.cues identity f)
      (Run.new inner identity))
    (hp : p.Ahead inner identity left) (h : Lasts Run.Steps n f σ p.next)
    (hσ : ∀ cue ∈ σ, cue.frame ≤ f + n) :
    Lasts (Passes.Steps ticket) (n + left * inner.duration) f
      (σ ++ inner.loopCues identity left (f + n)) p := by
  induction left generalizing n f σ p with
  | zero =>
      have hnil : inner.loopCues identity 0 (f + n) = [] := rfl
      rw [Nat.zero_mul, Nat.add_zero, hnil, List.append_nil]
      refine h.simulate (fun run p => p.Ahead inner identity 0 ∧ p.next = run) ?_ ⟨hp, rfl⟩
      rintro _ p ⟨hp, rfl⟩ pb
      obtain ⟨suspended, pb₀, hcurrent, hpb₀⟩ := p.current_eq ticket pb
      refine ⟨pb₀, hpb₀, fun {progress run' pb₁} hstep => ?_⟩
      cases progress with
      | pending =>
          exact ⟨_, pb₁, .passesPending hcurrent hstep, .refl pb₁,
            fun _ => ⟨⟨hp.sequence, hp.identity, hp.loops⟩, rfl⟩⟩
      | done =>
          exact ⟨_, _, .passesFinished hcurrent hstep (hp.finish suspended),
            plays_closePass ticket p run' pb₁, fun hpending => by cases hpending⟩
  | succ left ih =>
      -- The passes behind the next one are a loop of their own, with one pass less to go.
      have hlater : ∀ {p : Passes H (Task H)}, p.Ahead inner identity left ∧ p.run = none →
          Lasts (Passes.Steps ticket) ((left + 1) * inner.duration) (f + n)
            (inner.loopCues identity (left + 1) (f + n)) p := by
        rintro p ⟨hp, hrun⟩
        have hnext : p.next = Run.new inner identity := by
          rw [Passes.next, hrun, ← hp.sequence, ← hp.identity]
          rfl
        rw [Nat.succ_mul, Nat.add_comm, Sequence.loopCues_succ]
        exact ih hp (hnext ▸ hinner (f + n)) fun cue hcue =>
          (inner.cues_within identity _ cue hcue).2
      refine h.andThen (fun run p => p.Ahead inner identity (left + 1) ∧ p.next = run)
        (fun p => p.Ahead inner identity left ∧ p.run = none) ?_ ?_ ⟨hp, rfl⟩ hlater hσ
        fun cue hcue => Sequence.le_of_mem_loopCues hcue
      · rintro _ p ⟨hp, rfl⟩ pb
        obtain ⟨suspended, pb₀, hcurrent, hpb₀⟩ := p.current_eq ticket pb
        refine ⟨pb₀, hpb₀, fun {run' pb₁} hstep => ?_⟩
        exact ⟨_, .passesPending hcurrent hstep, ⟨hp.sequence, hp.identity, hp.loops⟩, rfl⟩
      · rintro _ p ⟨hp, rfl⟩ pb
        obtain ⟨suspended, pb₀, hcurrent, hpb₀⟩ := p.current_eq ticket pb
        refine ⟨pb₀, hpb₀, fun {run' pb₁} hstep => ?_⟩
        exact ⟨p.completePass suspended, _, plays_closePass ticket p run' pb₁,
          ⟨hp.completePass suspended, rfl⟩, fun hpasses =>
            .passesAgain hcurrent hstep (hp.again suspended) hpasses⟩

/-- The work of a nested sequence is its passes, and leaves the cursor alone. -/
theorem Lasts.passes {C : Cursor → Prop} (h : Lasts (Passes.Steps ticket) n f σ p) :
    Lasts (Work.Steps C ticket) n f σ (.passes p) := by
  refine h.simulate (fun p w => w = .passes p) ?_ rfl
  rintro p _ rfl pb
  refine ⟨pb, .refl pb, fun {_ p' pb₁} hpasses => ?_⟩
  exact ⟨.passes p', pb₁, fun c _ => .nested hpasses, .refl pb₁, fun _ => rfl⟩

/-- The work that the node of a nested sequence leaves. -/
theorem loop_lasts {count : Nat} (inRange : 0 < count ∧ count ≤ 4294967295)
    (hinner : ∀ f, Lasts Run.Steps inner.duration f (inner.cues identity f)
      (Run.new inner identity)) :
    Lasts (Work.Steps Anywhere ticket) (count * inner.duration) f
      (inner.loopCues identity count f)
      (.passes { sequence := inner, identity, loops := .times count inRange }) := by
  obtain ⟨left, rfl⟩ : ∃ left, count = left + 1 := ⟨count - 1, by omega⟩
  rw [Nat.succ_mul, Nat.add_comm, Sequence.loopCues_succ]
  refine (passes_last hinner ?_ (hinner f) ?_).passes
  · exact ⟨rfl, rfl, left + 1, inRange, rfl, by simp⟩
  · exact fun cue hcue => (inner.cues_within identity f cue hcue).2

end

/-! ### The whole tree -/

section

variable {s : Sequence H} {nested : NestedId}

/-- Single nodes last as long as they should, if the smaller sequences do. -/
theorem nodes_last
    (hbelow : ∀ inner, s.Below inner → inner.Timed → ∀ identity f,
      Lasts Run.Steps inner.duration f (inner.cues identity f) (Run.new inner identity)) :
    NodesLast s nested := by
  intro entry hentry htimed p parallel f
  cases hnode : entry.node with
  -- nodes that take no time
  | setParameter parameter value =>
      refine visits_finished fun values pb hpb =>
        ⟨{ pb with parameters := pb.parameters.set parameter value }, ?_, rfl⟩
      rw [hnode]
      rfl
  | log message severity =>
      let text := fun pb : Playback H => pb.bindings.resolve message ⟨s.id, nested⟩
      refine visits_finished fun values pb hpb =>
        ⟨pb.record (.noticed (.message severity s.name (text pb))), ?_, rfl⟩
      rw [hnode]
      rfl
  | host n =>
      rw [hnode] at htimed
      refine visits_finished fun values pb hpb => ?_
      let cx : Context H := ⟨⟨p⟩, pb⟩
      obtain ⟨hwork, hcursor, hstop⟩ := htimed ⟨s.id, nested, values⟩ cx.surroundings
      let reaction := (H.invoke n.behavior ⟨s.id, nested, values⟩ cx.surroundings).1
      refine ⟨(cx.absorb reaction).playback, ?_, Context.absorb_stopRequested hstop⟩
      have hafter : cx.absorb reaction = ⟨⟨p⟩, (cx.absorb reaction).playback⟩ := by
        have hstay : (cx.absorb reaction).cursor = ⟨p⟩ :=
          (Context.absorb_cursor cx reaction).trans hcursor
        rw [← hstay]
      rw [hnode, ← hafter]
      change ((H.invoke n.behavior ⟨s.id, nested, values⟩ cx.surroundings).2.map Work.hosted,
        cx.absorb reaction) = _
      rw [hwork]
      rfl
  -- nodes that take some
  | waitFrames frames =>
      cases frames with
      | zero => exact visits_finished fun values pb hpb => ⟨pb, by rw [hnode]; rfl, rfl⟩
      | succ frames =>
          refine visits_anywhere (w := .untilFrame (f + (frames + 1))) (fun values pb hpb => ?_)
            fun ticket => lasts_untilFrame ticket _ f
          rw [hnode, ← hpb.1]
          rfl
  | nested inner identity loops =>
      rw [hnode] at htimed
      cases loops with
      | forever => exact htimed.elim
      | times count inRange =>
          refine visits_anywhere
            (w := .passes { sequence := inner, identity, loops := .times count inRange })
            (fun values pb hpb => by rw [hnode]; rfl) fun ticket => loop_lasts inRange fun f => ?_
          exact hbelow inner (Sequence.below_nested hentry hnode) htimed identity f
  -- nodes that are not timed
  | skip | skipIf | parallelNext | stop | wait | waitUntil =>
      rw [hnode] at htimed
      exact htimed.elim

/-- **Duration of a run.** A run over a timed sequence lasts as long as the sequence, and plays its
cues. -/
theorem run_lasts (s : Sequence H) (htimed : s.Timed) (nested : NestedId) (f : Nat) :
    Lasts Run.Steps s.duration f (s.cues nested f) (Run.new s nested) := by
  have hnodes : NodesLast s nested := by
    refine nodes_last fun inner hbelow htimed identity f => ?_
    have : sizeOf inner < sizeOf s := hbelow
    exact run_lasts inner htimed identity f
  exact new_lasts hnodes htimed f
termination_by sizeOf s

end

end Sequencer
