import Sequencer.Proofs.Timing.Tasks

/-!
# Sequencer.Proofs.Timing.Joins

A join lasts as long as the longest of its branches. All branches are visited in the frame in which
the fork starts, and the pending ones are polled once in each of the next frames; the join is done
within the frame in which the last of them is.

`Bundle` describes the branches between two frames. Each round of polls takes one off its number of
rounds (`Bundle.round`), and this number is zero exactly if no branch is left.
-/

namespace Sequencer

variable {H : Host} {n d f : Nat} {σ : List (Cue H)}

/-! ### Rounds of polls -/

/-- Branches before frame `f`: `d` more rounds, and they are all done. -/
inductive Bundle (f : Nat) : Nat → List (Cue H) → List (Task H) → Prop
  /-- No branch. -/
  | nil : Bundle f 0 [] []
  /-- The cues of a branch that is done. -/
  | past {d : Nat} {σ τ : List (Cue H)} {ts : List (Task H)} :
      (∀ cue ∈ σ, cue.frame < f) → Bundle f d τ ts → Bundle f d (σ ++ τ) ts
  /-- A pending branch. -/
  | cons {n d : Nat} {σ τ : List (Cue H)} {t : Task H} {ts : List (Task H)} :
      Lasts (Task.Steps Anywhere) n f σ t → (∀ cue ∈ σ, cue.frame ≤ f + n) → Bundle f d τ ts →
      Bundle f (max (n + 1) d) (σ ++ τ) (t :: ts)

theorem Bundle.rounds_eq_zero {ts : List (Task H)} (h : Bundle f d σ ts) : d = 0 ↔ ts = [] := by
  induction h with
  | nil => simp
  | past _ _ ih => exact ih
  | cons _ _ _ _ =>
      constructor
      · intro h
        omega
      · intro h
        cases h

/-- One bundle behind the other. -/
theorem Bundle.append {e : Nat} {τ : List (Cue H)} {ts us : List (Task H)} (h : Bundle f d σ ts)
    (h' : Bundle f e τ us) : Bundle f (max d e) (σ ++ τ) (ts ++ us) := by
  induction h with
  | nil =>
      rw [Nat.zero_max]
      exact h'
  | past hσ _ ih =>
      rw [List.append_assoc]
      exact .past hσ ih
  | cons hlasts hσ _ ih =>
      rw [List.append_assoc, Nat.max_assoc]
      exact .cons hlasts hσ ih

/-- A round of polls in frame `f`. -/
theorem Bundle.round {ts : List (Task H)} (h : Bundle f d σ ts) {pb : Playback H}
    (hpb : pb.InFrame f) : ∃ pending finished pb',
      (∀ c, (Job.branches ts ⟨c, pb⟩ pending finished ⟨c, pb'⟩).Returns) ∧
        pb.Plays (due σ f) pb' ∧ Bundle (f + 1) (d - 1) σ pending ∧
        finished + pending.length = ts.length := by
  induction h generalizing pb with
  | nil => exact ⟨[], 0, pb, fun _ => .branchesEnd, .refl pb, .nil, rfl⟩
  | @past d σ τ ts hσ _ ih =>
      obtain ⟨pending, finished, pb', hbranches, hplays, hbundle, hlength⟩ := ih hpb
      have hnil : due σ f = [] := due_eq_nil fun cue hcue => Nat.ne_of_lt (hσ cue hcue)
      refine ⟨pending, finished, pb', hbranches, ?_, .past ?_ hbundle, hlength⟩
      · rw [due_append, hnil]
        exact hplays
      · intro cue hcue
        exact Nat.lt_succ_of_lt (hσ cue hcue)
  | @cons n d σ τ t ts hlasts hσ _ ih =>
      rw [due_append]
      cases n with
      | zero =>
          -- The branch is done, and the other ones are polled after it.
          obtain ⟨t', pb₁, hpoll, hplays⟩ := hlasts pb hpb
          have hrelease := Playback.Plays.abandon pb₁ t'.held
          obtain ⟨pending, finished, pb', hbranches, hplays', hbundle, hlength⟩ :=
            ih (hrelease.inFrame (hplays.inFrame hpb))
          have hrounds : max (0 + 1) d - 1 = d - 1 := by omega
          rw [hrounds]
          refine ⟨pending, finished + 1, pb',
            fun c => .branchesDone (hpoll c trivial) (hbranches c),
            (hplays.after hrelease).trans hplays', .past ?_ hbundle, ?_⟩
          · intro cue hcue
            exact Nat.lt_succ_of_le (hσ cue hcue)
          · rw [List.length_cons, ← hlength]
            omega
      | succ n =>
          obtain ⟨t', pb₁, hpoll, hplays, hrest⟩ := hlasts pb hpb
          obtain ⟨pending, finished, pb', hbranches, hplays', hbundle, hlength⟩ :=
            ih (hplays.inFrame hpb)
          have hrounds : max (n + 1 + 1) d - 1 = max (n + 1) (d - 1) := by omega
          rw [hrounds]
          refine ⟨t' :: pending, finished, pb',
            fun c => .branchesPending (hpoll c trivial) (hbranches c),
            hplays.trans hplays', .cons hrest ?_ hbundle, ?_⟩
          · intro cue hcue
            have := hσ cue hcue
            omega
          · rw [List.length_cons, List.length_cons, ← hlength]
            omega

/-! ### Joins -/

namespace Join

/-- A join that is under way is polled. -/
def Steps (s : Sequence H) (nested : NestedId) (first stop : Nat) : Stepping H (Join (Task H)) :=
  fun join pb progress join' pb' => progress = .doneIf join'.isDone ∧
    ∀ c, (Job.join s nested first stop (some join) ⟨c, pb⟩ join' ⟨c, pb'⟩).Returns

/-- A join before frame `f` that has `d` more rounds to go. -/
structure Open (join : Join (Task H)) (d f : Nat) (σ : List (Cue H)) : Prop where
  /-- The branches that are left take so many rounds. -/
  bundle : Bundle f d σ join.branches
  /-- A branch that was started is either completed or left. -/
  balanced : join.completed + join.branches.length = join.started

namespace Open

variable {join : Join (Task H)} {s : Sequence H} {nested : NestedId} {first stop : Nat}

theorem progress_zero (h : join.Open 0 f σ) : Progress.doneIf join.isDone = .done := by
  rw [Progress.doneIf_eq_done, isDone, beq_iff_eq, ← h.balanced, h.bundle.rounds_eq_zero.mp rfl]
  rfl

theorem progress_succ (h : join.Open (n + 1) f σ) :
    Progress.doneIf join.isDone = .pending := by
  have hleft : join.branches ≠ [] := by
    rw [ne_eq, ← h.bundle.rounds_eq_zero]
    omega
  have hpos := List.length_pos_iff.mpr hleft
  have := h.balanced
  have hdone : join.isDone = false := by
    rw [isDone, beq_eq_false_iff_ne]
    omega
  rw [hdone]
  rfl

/-- One more branch is started in frame `f`. -/
theorem count {τ : List (Cue H)} {outcome : Outcome H} (h : join.Open d (f + 1) σ)
    (hleads : outcome.Leads Anywhere n f τ) (hτ : ∀ cue ∈ τ, cue.frame ≤ f + n) :
    (join.count outcome).Open (max d n) (f + 1) (σ ++ τ) := by
  have hbalanced := h.balanced
  cases n with
  | zero =>
      obtain rfl : outcome = .done := hleads
      have hpast : Bundle (f + 1) 0 (τ ++ []) ([] : List (Task H)) :=
        .past (fun cue hcue => Nat.lt_succ_of_le (hτ cue hcue)) .nil
      rw [List.append_nil] at hpast
      constructor
      · have hbundle := h.bundle.append hpast
        rwa [List.append_nil] at hbundle
      · simp only [Join.count]
        omega
  | succ n =>
      obtain ⟨t, rfl, hlasts⟩ := hleads
      have hτ' : ∀ cue ∈ τ, cue.frame ≤ f + 1 + n := fun cue hcue => by
        have := hτ cue hcue
        omega
      have hone := Bundle.cons hlasts hτ' .nil
      rw [List.append_nil, Nat.max_zero] at hone
      constructor
      · exact h.bundle.append hone
      · simp only [Join.count, List.length_append, List.length_singleton]
        omega

/-- A poll in frame `f` is one round. -/
theorem poll (h : join.Open d f σ) (s : Sequence H) (nested : NestedId) (first stop : Nat)
    {pb : Playback H} (hpb : pb.InFrame f) : ∃ join' pb',
      (∀ c, (Job.join s nested first stop (some join) ⟨c, pb⟩ join' ⟨c, pb'⟩).Returns) ∧
        pb.Plays (due σ f) pb' ∧ join'.Open (d - 1) (f + 1) σ := by
  obtain ⟨pending, finished, pb', hbranches, hplays, hbundle, hlength⟩ := h.bundle.round hpb
  refine ⟨join.update pending finished, _, fun c => .joinPolled (hbranches c),
    hplays.after (.record pb' rfl rfl), hbundle, ?_⟩
  have := h.balanced
  simp only [update]
  omega

/-- A join that is polled in frame `f` is done if that was the last round. -/
theorem lasts (h : join.Open (n + 1) f σ) : Lasts (Join.Steps s nested first stop) n f σ join := by
  induction n generalizing f join with
  | zero =>
      intro pb hpb
      obtain ⟨join', pb', hjoin, hplays, hopen⟩ := h.poll s nested first stop hpb
      exact ⟨join', pb', ⟨hopen.progress_zero.symm, hjoin⟩, hplays⟩
  | succ n ih =>
      intro pb hpb
      obtain ⟨join', pb', hjoin, hplays, hopen⟩ := h.poll s nested first stop hpb
      exact ⟨join', pb', ⟨hopen.progress_succ.symm, hjoin⟩, hplays, ih hopen⟩

/-- What is left of a join that was started in frame `f`. -/
theorem leads (h : join.Open d (f + 1) σ) :
    Leads (Join.Steps s nested first stop) d f σ (.doneIf join.isDone) join := by
  cases d with
  | zero => exact h.progress_zero
  | succ d => exact ⟨h.progress_succ, h.lasts⟩

end Open

end Join

/-! ### Forks -/

section

variable {s : Sequence H} {nested : NestedId}

/-- The nodes of the sequence that are no heads of blocks last as long as they should. -/
def NodesLast (s : Sequence H) (nested : NestedId) : Prop :=
  ∀ entry ∈ s.nodes, entry.node.Timed → ∀ p parallel f,
    Visits s nested p entry parallel Anywhere ⟨p⟩ entry.node.duration f
      (⟨s, nested, p, f⟩ :: entry.node.cues f)

theorem cues_within_visit (node : SequenceNode H) (p f : Nat) :
    ∀ cue ∈ (⟨s, nested, p, f⟩ : Cue H) :: node.cues f, cue.frame ≤ f + node.duration := by
  intro cue hcue
  rcases List.mem_cons.mp hcue with rfl | hcue
  · exact Nat.le_add_right f _
  · exact (node.cues_within f cue hcue).2

/-- A fork over timed nodes starts all of them in its frame. The cursor ends at the last one. -/
theorem fork_starts (hnodes : NodesLast s nested) (hmax : (s.length : Int) ≤ Cursor.highest)
    {rest : List (SequenceEntry H)} {count p : Nat} (hrest : s.nodes.drop p = rest)
    (htimed : BranchesTimed rest count) {join : Join (Task H)} (hjoin : join.Open d (f + 1) σ)
    (c : Cursor) {pb : Playback H} (hpb : pb.InFrame f) : ∃ join' c' pb',
      (Job.fork s nested (s.span p (p + count)) p join ⟨c, pb⟩ join' ⟨c', pb'⟩).Returns ∧
        pb.Plays (due (branchCues rest count s nested p f) f) pb' ∧
        join'.Open (max d (longest rest count)) (f + 1)
          (σ ++ branchCues rest count s nested p f) ∧
        (c.index + 1 = p → c'.index + 1 = (p + count : Nat)) := by
  induction count generalizing rest p d σ join c pb with
  | zero =>
      refine ⟨join, c, pb, ?_, ?_, ?_, id⟩
      · rw [Nat.add_zero, s.span_of_le (Nat.le_refl p)]
        exact .forkEnd
      · rw [branchCues]
        exact .refl pb
      · simpa [branchCues, longest] using hjoin
  | succ count ih =>
      rcases rest with _ | ⟨entry, rest⟩
      · exact htimed.elim
      obtain ⟨hnode, htimed⟩ := htimed
      obtain ⟨hentry, hdrop⟩ := Sequence.of_drop_cons hrest
      have hlt : p < s.length := (List.getElem?_eq_some_iff.mp hentry).1
      -- The node at `p` becomes a branch, and the fork goes on behind it.
      obtain ⟨outcome, pb₁, hvisit, hplays, hleads⟩ :=
        hnodes entry (List.mem_of_getElem? hentry) hnode p true f pb hpb
      have hcounted := hjoin.count hleads (cues_within_visit entry.node p f)
      obtain ⟨join', c', pb', hfork, hplays', hopen, hcursor⟩ :=
        ih hdrop htimed hcounted ⟨p⟩ (hplays.inFrame hpb)
      have hmoved : (⟨⟨p⟩, pb⟩ : Context H) = (⟨c, pb⟩ : Context H).moveTo p := by
        rw [Context.moveTo, Cursor.set_eq _ (by omega)]
      have hnext : (⟨⟨p⟩, pb₁⟩ : Context H).nextBranch p = p + 1 := by
        have hposition : (⟨p⟩ : Cursor).position? = some p := Cursor.position?_eq_some.mpr rfl
        simp [Context.nextBranch, hposition]
      rw [hmoved] at hvisit
      have hstop : p + (count + 1) = p + 1 + count := by omega
      rw [hstop, s.span_cons (by omega) hentry]
      refine ⟨join', c', pb', .forkNext (Nat.le_refl p) hpb.2 hvisit ?_, ?_, ?_, ?_⟩
      · rw [hnext]
        exact hfork
      · rw [branchCues, due_append]
        exact hplays.trans hplays'
      · rw [branchCues, longest, ← Nat.max_assoc, ← List.append_assoc]
        exact hopen
      · intro _
        exact hcursor rfl

/-! ### Blocks -/

/-- Moving the cursor to where it is. -/
theorem Context.moveToIf_self {i : Nat} (hi : (i : Int) ≤ Cursor.highest) (pb : Playback H)
    (condition : Bool) : (⟨⟨i⟩, pb⟩ : Context H).moveToIf condition i = ⟨⟨i⟩, pb⟩ := by
  cases condition with
  | false => rfl
  | true => rw [Context.moveToIf, if_pos rfl, Context.moveTo, Cursor.set_eq _ hi]

/-- A block that is under way lasts as long as its join. Its polls leave the cursor at the last
node, which is where it is to be when the block is done. -/
theorem Lasts.block {first i ticket : Nat} {join : Join (Task H)} (hi : (i : Int) ≤ Cursor.highest)
    (h : Lasts (Join.Steps s nested first (i + 1)) n f σ join) :
    Lasts (Work.Steps (· = ⟨i⟩) ticket) n f σ (.block ⟨s, nested, first, i + 1, some join⟩) := by
  refine h.simulate (fun join w => w = .block ⟨s, nested, first, i + 1, some join⟩) ?_ rfl
  rintro join _ rfl pb
  refine ⟨pb, .refl pb, ?_⟩
  rintro _ join' pb₁ ⟨rfl, hjoin⟩
  refine ⟨.block ⟨s, nested, first, i + 1, some join'⟩, pb₁, ?_, .refl pb₁, fun _ => rfl⟩
  rintro _ rfl
  have hcursor : (⟨⟨i⟩, pb₁⟩ : Context H)
      = (⟨⟨i⟩, pb₁⟩ : Context H).moveToIf join'.isDone (i + 1 - 1) :=
    (Context.moveToIf_self hi pb₁ join'.isDone).symm
  rw [hcursor]
  exact .block (hjoin ⟨i⟩)

/-- The visit of a block starts its branches, and the block lasts as long as the longest one. -/
theorem visits_block (hnodes : NodesLast s nested) (hmax : (s.length : Int) ≤ Cursor.highest)
    {p count : Nat} {entry : SequenceEntry H} {rest : List (SequenceEntry H)}
    (hnode : entry.node = .parallelNext count) (hrest : s.nodes.drop (p + 1) = rest)
    (htimed : BranchesTimed rest count) :
    Visits s nested p entry false (· = ⟨(p + count : Nat)⟩) ⟨(p + count : Nat)⟩
      (longest rest count) f (⟨s, nested, p, f⟩ :: branchCues rest count s nested (p + 1) f) := by
  have hposition : (⟨p⟩ : Cursor).position? = some p := Cursor.position?_eq_some.mpr rfl
  cases count with
  | zero =>
      rw [longest, branchCues]
      refine visits_finished fun values pb hpb => ⟨pb, ?_, rfl⟩
      have hempty : ¬ p + 1 < min (p + 1 + 0) s.length := by omega
      rw [hnode]
      simp only [Node.start, hposition, if_neg hempty]
  | succ count =>
      have hlength : p + 1 + (count + 1) ≤ s.length := by
        have hcount := htimed.le_length
        rw [← hrest, List.length_drop] at hcount
        rw [Sequence.length]
        omega
      have hstop : min (p + 1 + (count + 1)) s.length = p + (count + 1) + 1 := by omega
      refine visits_work (w := .block ⟨s, nested, p + 1, p + (count + 1) + 1, none⟩) ?_ ?_
      · intro values pb hpb
        have hlt : p + 1 < p + (count + 1) + 1 := by omega
        rw [hnode]
        simp only [Node.start, hposition, hstop, if_pos hlt]
      · intro ticket pb hpb
        -- The first step of the block is its fork.
        have hempty : ({} : Join (Task H)).Open 0 (f + 1) [] := ⟨.nil, rfl⟩
        obtain ⟨join, c, pb', hfork, hplays, hopen, hcursor⟩ :=
          fork_starts hnodes hmax hrest htimed hempty ⟨p⟩ hpb
        have hrange : p + 1 + (count + 1) = p + (count + 1) + 1 := by omega
        obtain ⟨index⟩ := c
        have hindex : index + 1 = (p + 1 + (count + 1) : Nat) := hcursor rfl
        obtain rfl : index = (p + (count + 1) : Nat) := by omega
        rw [hrange] at hfork
        have hlast : (⟨⟨(p + (count + 1) : Nat)⟩, pb'⟩ : Context H) =
            (⟨⟨(p + (count + 1) : Nat)⟩, pb'⟩ : Context H).moveToIf join.isDone
              (p + (count + 1) + 1 - 1) :=
          (Context.moveToIf_self (by omega) pb' join.isDone).symm
        rw [Nat.zero_max, List.nil_append] at hopen
        refine ⟨.doneIf join.isDone,
          .block ⟨s, nested, p + 1, p + (count + 1) + 1, some join⟩, pb', ?_, hplays,
          hopen.leads.imp fun h => h.block (by omega)⟩
        rw [hlast]
        exact .block (.joinStarted hfork)

end

end Sequencer
