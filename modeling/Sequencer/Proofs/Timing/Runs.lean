import Sequencer.Proofs.Timing.Joins

/-!
# Sequencer.Proofs.Timing.Runs

A run lasts as long as its sequence (`run_lasts`). The proof is by induction on the size of the
sequence: the nodes last as long as they should because the sequences that they nest are smaller.

A run in list order is an induction on the nodes behind the cursor, in the shape of `ItemsTimed`: a
single node or a block, and then the rest of the list in the frame in which that is done. A loop is
an induction on the passes that are left, of which each begins in the frame in which the one before
it is done.
-/

namespace Sequencer

variable {H : Host} {n m f : Nat} {σ τ : List (Cue H)}

/-! ### Runs in list order -/

section

variable {s : Sequence H} {nested : NestedId}

/-- A run in list order goes on: with the suspended node, if there is one, at a cursor. -/
def Run.Resumes (s : Sequence H) (nested : NestedId) : Stepping H (Option (Task H) × Cursor) :=
  fun a pb progress a' pb' =>
    (Job.resume s nested a.1 ⟨a.2, pb⟩ progress a'.1 ⟨a'.2, pb'⟩).Returns

/-- When the suspended node is done, the run goes on behind the cursor. -/
theorem Lasts.resume {C : Cursor → Prop} {t : Task H} {c : Cursor} {next : Nat}
    (ht : Lasts (Task.Steps C) n f σ t) (hc : C c) (hnext : c.advance 1 = ⟨next⟩)
    (hrest : Lasts (Run.Resumes s nested) m (f + n) τ (none, ⟨next⟩))
    (hσ : ∀ cue ∈ σ, cue.frame ≤ f + n) (hτ : ∀ cue ∈ τ, f + n ≤ cue.frame) :
    Lasts (Run.Resumes s nested) (n + m) f (σ ++ τ) (some t, c) := by
  refine ht.andThen (fun t a => a = (some t, c)) (fun a => a = (none, ⟨next⟩)) ?_ ?_ rfl ?_ hσ hτ
  · rintro t _ rfl pb
    refine ⟨pb, .refl pb, fun {t' pb₁} hpoll => ?_⟩
    exact ⟨(some t', c), .resumePending (hpoll c hc), rfl⟩
  · rintro t _ rfl pb
    refine ⟨pb, .refl pb, fun {t' pb₁} hpoll => ?_⟩
    refine ⟨(none, ⟨next⟩), pb₁.abandon t'.held, .abandon pb₁ _, rfl, ?_⟩
    intro progress a pb' hresume
    have hcursor : (((⟨c, pb₁⟩ : Context H).release t').advance 1)
        = ⟨⟨next⟩, pb₁.abandon t'.held⟩ := by
      rw [← hnext]
      rfl
    cases hresume with
    | resumeWalk hwalk =>
        rw [← hcursor] at hwalk
        exact .resumeDone (hpoll c hc) hwalk
  · rintro _ rfl
    exact hrest

/-- A run that comes to a node visits it, and goes on behind it when the node is done. -/
theorem Visits.walk {C : Cursor → Prop} {last : Cursor} {entry : SequenceEntry H} {p next : Nat}
    (hvisit : Visits s nested p entry false C last n f σ) (hentry : s.nodes[p]? = some entry)
    (hlast : C last) (hnext : last.advance 1 = ⟨next⟩)
    (hrest : Lasts (Run.Resumes s nested) m (f + n) τ (none, ⟨next⟩))
    (hσ : ∀ cue ∈ σ, cue.frame ≤ f + n) (hτ : ∀ cue ∈ τ, f + n ≤ cue.frame) :
    Lasts (Run.Resumes s nested) (n + m) f (σ ++ τ) (none, ⟨p⟩) := by
  have hnode : ∀ pb, (⟨⟨p⟩, pb⟩ : Context H).nextNode? s = some (p, entry) :=
    fun _ => Context.nextNode?_eq_some.mpr ⟨rfl, hentry⟩
  cases n with
  | zero =>
      -- The node is done within the visit, and the walk goes on in the same frame.
      rw [Nat.zero_add]
      refine Lasts.headed (fun pb hpb => ?_) hσ
      obtain ⟨outcome, pb₁, hv, hplays, hleads⟩ := hvisit pb hpb
      obtain rfl : outcome = .done := hleads
      refine ⟨(none, ⟨next⟩), pb₁, hplays, hrest, ?_⟩
      intro progress a pb' hresume
      have hcursor : (⟨last, pb₁⟩ : Context H).advance 1 = ⟨⟨next⟩, pb₁⟩ := by
        rw [← hnext]
        rfl
      cases hresume with
      | resumeWalk hwalk =>
          rw [← hcursor] at hwalk
          exact .resumeWalk (.walkNext hpb.2 (hnode pb) hv hwalk)
  | succ n =>
      -- The node suspends the run, which resumes its task from the next frame on.
      rw [Nat.add_right_comm]
      intro pb hpb
      obtain ⟨outcome, pb₁, hv, hplays, hleads⟩ := hvisit pb hpb
      obtain ⟨t, rfl, ht⟩ := hleads
      have hnil : due τ f = [] := due_eq_nil fun cue hcue => by
        have := hτ cue hcue
        omega
      have hle : f + (n + 1) = f + 1 + n := by omega
      rw [hle] at hrest hσ hτ
      refine ⟨(some t, last), pb₁, .resumeWalk (.walkPending hpb.2 (hnode pb) hv), ?_,
        ht.resume hlast hnext hrest hσ hτ⟩
      rw [due_append, hnil, List.append_nil]
      exact hplays

theorem Cursor.advance_one {p : Nat} (hp : ((p + 1 : Nat) : Int) ≤ Cursor.highest) :
    (⟨p⟩ : Cursor).advance 1 = ⟨(p + 1 : Nat)⟩ := by
  have h : ((⟨p⟩ : Cursor).advance 1).index = (p : Int) + (1 : Nat) :=
    Cursor.advance_index (Int.natCast_nonneg p) (by simpa using hp)
  rw [← Int.natCast_add] at h
  rw [← h]

theorem Node.branchCount?_eq_some {node : SequenceNode H} {count : Nat}
    (h : node.branchCount? = some count) : node = .parallelNext count := by
  cases node <;> simp_all [branchCount?]

/-- From any item on, a run in list order lasts as long as the rest of the list. -/
theorem walk_lasts (hnodes : NodesLast s nested) (hmax : (s.length : Int) ≤ Cursor.highest)
    {rest : List (SequenceEntry H)} {passed p : Nat} (hrest : s.nodes.drop p = rest)
    (htimed : ItemsTimed rest passed) (f : Nat) :
    Lasts (Run.Resumes s nested) (total rest passed) f (itemCues rest passed s nested p f)
      (none, ⟨(p + passed : Nat)⟩) := by
  induction rest generalizing passed p f with
  | nil =>
      have hend : s.length ≤ p + passed := by
        have := List.drop_eq_nil_iff.mp hrest
        rw [Sequence.length]
        omega
      intro pb hpb
      exact ⟨(none, _), pb, .resumeWalk (.walkEnd hpb.2 (Context.nextNode?_eq_none rfl hend)),
        .refl pb⟩
  | cons entry rest ih =>
      obtain ⟨hentry, hdrop⟩ := Sequence.of_drop_cons hrest
      have hlt : p < s.length := (List.getElem?_eq_some_iff.mp hentry).1
      cases passed with
      | succ passed =>
          -- A branch of a block before the cursor: the cursor stays where it is.
          have hposition : p + (passed + 1) = p + 1 + passed := by omega
          rw [hposition]
          exact ih hdrop htimed f
      | zero =>
          simp only [ItemsTimed] at htimed
          simp only [total, itemCues]
          cases hcount : entry.node.branchCount? with
          | none =>
              rw [hcount] at htimed
              have hvisit := hnodes entry (List.mem_of_getElem? hentry) htimed.1 p false f
              exact hvisit.walk hentry trivial (Cursor.advance_one (by omega))
                (ih hdrop htimed.2 _) (cues_within_visit entry.node p f)
                fun cue hcue => (itemCues_within _ _ _ _ _ _ cue hcue).1
          | some count =>
              rw [hcount] at htimed
              have hnode := Node.branchCount?_eq_some hcount
              have hlength := htimed.1.le_length
              rw [← hdrop, List.length_drop] at hlength
              have hnext : p + count + 1 = p + 1 + count := by omega
              have hlast := Cursor.advance_one (p := p + count)
                (by rw [Sequence.length] at hmax hlt; omega)
              rw [hnext] at hlast
              refine (visits_block hnodes hmax hnode hdrop htimed.1).walk hentry rfl hlast
                (ih hdrop htimed.2 _) ?_ fun cue hcue => (itemCues_within _ _ _ _ _ _ cue hcue).1
              intro cue hcue
              rcases List.mem_cons.mp hcue with rfl | hcue
              · exact Nat.le_add_right f _
              · exact (branchCues_within _ _ _ _ _ _ cue hcue).2

/-! ### Steps of a run -/

/-- A run takes a step. -/
def Run.Steps : Stepping H (SequenceRun H) :=
  fun run pb progress run' pb' => (Job.step run pb progress run' pb').Returns

/-- A run in list order takes its steps. -/
theorem Lasts.sequential {current : Option (Task H)} {c : Cursor}
    (h : Lasts (Run.Resumes s nested) n f σ (current, c)) :
    Lasts Run.Steps n f σ ⟨s, nested, c, .sequential current⟩ := by
  refine h.simulate (fun a run => run = ⟨s, nested, a.2, .sequential a.1⟩) ?_ rfl
  rintro a _ rfl pb
  refine ⟨pb, .refl pb, fun {progress a' pb₁} hresume => ?_⟩
  exact ⟨⟨s, nested, a'.2, .sequential a'.1⟩, pb₁, .stepSequential hresume, .refl pb₁,
    fun _ => rfl⟩

/-- A parallel run whose nodes are started takes its steps. -/
theorem Lasts.parallel {join : Join (Task H)} {c : Cursor}
    (h : Lasts (Join.Steps s nested 0 s.length) n f σ join) :
    Lasts Run.Steps n f σ ⟨s, nested, c, .parallel (some join)⟩ := by
  refine h.simulate (fun join run => ∃ c, run = ⟨s, nested, c, .parallel (some join)⟩) ?_ ⟨c, rfl⟩
  rintro join _ ⟨c, rfl⟩ pb
  refine ⟨pb, .refl pb, ?_⟩
  rintro _ join' pb₁ ⟨rfl, hjoin⟩
  exact ⟨_, pb₁, .stepParallel (hjoin c), .refl pb₁, fun _ => ⟨_, rfl⟩⟩

theorem Sequence.timed_iff : s.Timed ↔ (s.length : Int) ≤ Cursor.highest ∧
    if s.parallel then BranchesTimed s.nodes s.length else ItemsTimed s.nodes 0 := by
  cases s
  rfl

theorem Sequence.duration_eq (s : Sequence H) :
    s.duration = if s.parallel then longest s.nodes s.length else total s.nodes 0 := by
  cases s
  rfl

theorem Sequence.cues_eq (s : Sequence H) (nested : NestedId) (f : Nat) :
    s.cues nested f = if s.parallel then branchCues s.nodes s.length s nested 0 f
      else itemCues s.nodes 0 s nested 0 f := by
  cases s
  rfl

/-- A new run lasts as long as its sequence, if the nodes last as long as they should. -/
theorem new_lasts (hnodes : NodesLast s nested) (htimed : s.Timed) (f : Nat) :
    Lasts Run.Steps s.duration f (s.cues nested f) (Run.new s nested) := by
  obtain ⟨hmax, htimed⟩ := Sequence.timed_iff.mp htimed
  rw [s.duration_eq, s.cues_eq, Run.new]
  cases hparallel : s.parallel with
  | false =>
      rw [hparallel] at htimed
      exact (walk_lasts hnodes hmax (p := 0) List.drop_zero htimed f).sequential
  | true =>
      rw [hparallel] at htimed
      rw [lasts_iff]
      intro pb hpb
      have hempty : ({} : Join (Task H)).Open 0 (f + 1) [] := ⟨.nil, rfl⟩
      obtain ⟨join, c, pb', hfork, hplays, hopen, -⟩ :=
        fork_starts hnodes hmax List.drop_zero htimed hempty .start hpb
      rw [Nat.zero_add] at hfork
      rw [Nat.zero_max, List.nil_append] at hopen
      exact ⟨.doneIf join.isDone, _, pb', .stepParallel (.joinStarted hfork), hplays,
        hopen.leads.imp fun h => h.parallel⟩

end

end Sequencer
