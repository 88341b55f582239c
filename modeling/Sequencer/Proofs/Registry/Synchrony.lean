import Sequencer.Proofs.Authoring
import Sequencer.Proofs.Registry.Reconcile

/-!
# Sequencer.Proofs.Registry.Synchrony

The registry of a sequence stays in step with the fields that its nodes declare, whatever its
authors do.

* `Node.declarations_assign`, `Sequence.claims_assignAll`: handing out indices changes the declared
  fields' indices and nothing else about them;
* `Sequence.InSync`: entries and declared fields correspond one to one, and the indices ascend;
* `Sequence.inSync_reconcile`: a reconciliation brings a sequence in step;
  `Sequence.InSync.reconcile_eq`: one more changes nothing;
* `Sequence.InSync.author`: every history of calls ends in step;
* `Sequence.Authored`: sequences that calls made, and so the sequences that their nodes nest;
  `Authored32.authored`: those whose calls have 32 bits for their sums are among them.
-/

namespace Sequencer

variable {H : Host}

/-! ### Handing out indices -/

namespace Node

variable {σ : Type}

/-- The declared ones among host fields, as declarations. -/
def declared (fields : List HostField) : List Declaration :=
  (fields.filter (·.declared)).map fun f => ⟨f.label, f.field⟩

theorem declared_assignDeclared (fields : List HostField) {indices : List OverrideIndex}
    (h : indices.length = (declared fields).length) :
    declared (assignDeclared fields indices)
      = List.zipWith Declaration.withIndex (declared fields) indices := by
  induction fields generalizing indices with
  | nil => simp [declared, assignDeclared]
  | cons f rest ih =>
      cases hf : f.declared with
      | false =>
          have hrest : declared (f :: rest) = declared rest := by simp [declared, hf]
          rw [hrest] at h ⊢
          cases indices with
          | nil =>
              rw [assignDeclared, hrest, List.zipWith_nil_right]
              · exact List.length_eq_zero_iff.mp h.symm
              · simp
          | cons index indices =>
              have hassign : assignDeclared (f :: rest) (index :: indices)
                  = f :: assignDeclared rest (index :: indices) := by simp [assignDeclared, hf]
              rw [hassign, ← ih h]
              simp [declared, hf]
      | true =>
          have hrest : declared (f :: rest) = ⟨f.label, f.field⟩ :: declared rest := by
            simp [declared, hf]
          rw [hrest] at h ⊢
          cases indices with
          | nil => simp at h
          | cons index indices =>
              have hassign : assignDeclared (f :: rest) (index :: indices)
                  = { f with field := f.field.withIndex index } :: assignDeclared rest indices := by
                simp [assignDeclared, hf]
              rw [hassign, List.zipWith_cons_cons, ← ih (by simpa using h)]
              simp [declared, hf, Declaration.withIndex]

/-- Handed as many indices as it declares fields, a node declares the same fields under them. -/
theorem declarations_assign (node : Node H σ) {indices : List OverrideIndex}
    (h : indices.length = node.declarations.length) :
    (node.assign indices).declarations
      = List.zipWith Declaration.withIndex node.declarations indices := by
  cases node with
  | skip count | wait seconds | log message severity =>
      obtain ⟨index, rfl⟩ := List.length_eq_one_iff.mp h
      rfl
  | host n => exact declared_assignDeclared n.fields h
  | _ =>
      obtain rfl := List.length_eq_zero_iff.mp h
      rfl

theorem assignDeclared_self (fields : List HostField) {indices : List OverrideIndex}
    (h : (declared fields).map (·.field.index) = indices.map some) :
    assignDeclared fields indices = fields := by
  induction fields generalizing indices with
  | nil => rfl
  | cons f rest ih =>
      cases indices with
      | nil => rfl
      | cons index indices =>
          cases hf : f.declared with
          | false =>
              simp only [assignDeclared, hf, Bool.false_eq_true, ↓reduceIte]
              rw [ih (by simpa [declared, hf] using h)]
          | true =>
              simp only [declared, hf, List.filter_cons_of_pos, List.map_cons,
                List.cons.injEq] at h
              rw [assignDeclared, if_pos hf, ih (by simpa [declared] using h.2),
                Field.withIndex, ← h.1]

/-- Handed the indices that its fields carry, a node stays as it is. -/
theorem assign_self (node : Node H σ) {indices : List OverrideIndex}
    (h : node.declarations.map (·.field.index) = indices.map some) :
    node.assign indices = node := by
  cases node with
  | skip count | wait seconds | log message severity =>
      obtain ⟨index, rfl⟩ : ∃ index, indices = [index] :=
        List.length_eq_one_iff.mp (by simpa [declarations] using (congrArg List.length h).symm)
      simp only [declarations, List.map_cons, List.map_nil, List.cons.injEq] at h
      simp only [assign, Field.withIndex, ← h.1, Field.toDynamic]
  | host n => simp only [assign, assignDeclared_self n.fields h]
  | _ => rfl

end Node

namespace Sequence

open Registry

theorem claims_cons (e : SequenceEntry H) (rest : List (SequenceEntry H)) :
    claims (e :: rest) = e.node.declarations.map (⟨e.id, ·⟩) ++ claims rest :=
  List.flatMap_cons

theorem mem_claims {nodes : List (SequenceEntry H)} {entry : SequenceEntry H}
    (hentry : entry ∈ nodes) {d : Declaration} (hd : d ∈ entry.node.declarations) :
    ⟨entry.id, d⟩ ∈ claims nodes :=
  List.mem_flatMap.mpr ⟨entry, hentry, List.mem_map_of_mem hd⟩

/-- Handing out indices gives each declared field its own and changes nothing else about it. -/
theorem claims_assignAll (nodes : List (SequenceEntry H)) {indices : List OverrideIndex}
    (h : indices.length = (claims nodes).length) :
    claims (assignAll nodes indices) = List.zipWith Claim.withIndex (claims nodes) indices := by
  induction nodes generalizing indices with
  | nil => simp [claims, assignAll]
  | cons e rest ih =>
      rw [claims_cons, List.length_append, List.length_map] at h
      have htake : (indices.take e.node.declarations.length).length
          = e.node.declarations.length := by
        rw [List.length_take, h]; omega
      have hdrop : (indices.drop e.node.declarations.length).length = (claims rest).length := by
        rw [List.length_drop, h]; omega
      rw [assignAll, claims_cons, claims_cons, ih hdrop, Node.declarations_assign _ htake]
      conv_rhs => rw [← List.take_append_drop e.node.declarations.length indices]
      rw [List.zipWith_append (by simpa using htake.symm), List.map_zipWith, List.zipWith_map_left]
      rfl

/-- Handed the indices that their fields carry, the nodes stay as they are. -/
theorem assignAll_self (nodes : List (SequenceEntry H)) {indices : List OverrideIndex}
    (h : (claims nodes).map (·.declaration.field.index) = indices.map some) :
    assignAll nodes indices = nodes := by
  induction nodes generalizing indices with
  | nil => rfl
  | cons e rest ih =>
      rw [claims_cons, List.map_append, List.map_map] at h
      obtain ⟨own, others, rfl, hown, hothers⟩ := List.map_eq_append_iff.mp h.symm
      have hlen : e.node.declarations.length = own.length := by
        simpa using (congrArg List.length hown).symm
      rw [assignAll, hlen, List.take_left, List.drop_left, ih hothers.symm,
        Node.assign_self _ hown.symm]

/-! ### In step -/

/-- The registry and the declared fields correspond one to one: every declared field carries an
index, the entries are those that describe the fields, each once, and their indices ascend. -/
structure InSync (s : Sequence H) : Prop where
  /-- Each field is described by one entry, and each entry describes one field. -/
  describes : ((claims s.nodes).map Claim.descriptor?).Perm (s.registry.map some)
  /-- The entries' indices go up strictly. -/
  ascending : s.registry.Ascending

/-- A reconciliation brings a sequence in step whose registry ascends, whatever indices the fields
carried before. -/
theorem inSync_reconcile {s : Sequence H} (h : s.registry.Ascending) :
    s.reconcile.sequence.InSync := by
  obtain ⟨hasc, hlen, hperm⟩ := reconcile_sound h (claims s.nodes)
  refine ⟨?_, hasc⟩
  have hentries : (claims s.reconcile.sequence.nodes).map Claim.descriptor?
      = (List.zipWith Claim.descriptor (claims s.nodes)
          (s.registry.reconcile (claims s.nodes)).indices).map some := by
    simp only [reconcile_def]
    rw [claims_assignAll _ hlen, List.map_zipWith, List.map_zipWith]
    simp
  rw [hentries]
  exact hperm.symm.map some

/-- The entries of the declared fields, in the order of the fields. -/
theorem InSync.exists_entries {s : Sequence H} (h : s.InSync) :
    ∃ entries : List Descriptor, (claims s.nodes).map Claim.descriptor? = entries.map some ∧
      entries.Perm s.registry := by
  have hsome : ∀ d? ∈ (claims s.nodes).map Claim.descriptor?, d?.isSome := by
    intro d? hd
    obtain ⟨d, -, rfl⟩ := List.mem_map.mp (h.describes.mem_iff.mp hd)
    rfl
  have hmap : (((claims s.nodes).map Claim.descriptor?).filterMap fun d? => d?).map some
      = (claims s.nodes).map Claim.descriptor? := by
    rw [List.map_filterMap_some_eq_filter_map_isSome, List.map_id', List.filter_eq_self.mpr hsome]
  refine ⟨_, hmap.symm, ?_⟩
  have hperm := h.describes.filterMap fun d? => d?
  rwa [show (s.registry.map some).filterMap (fun d? => d?) = s.registry by
    simp [List.filterMap_map]] at hperm

/-- Reconciling a sequence in step changes nothing, reports nothing and logs nothing. -/
theorem InSync.reconcile_eq {s : Sequence H} (h : s.InSync) :
    s.reconcile = .unchanged s := by
  obtain ⟨entries, hentries, hperm⟩ := h.exists_entries
  have hindices : (claims s.nodes).map (·.declaration.field.index)
      = (entries.map (·.index)).map some := by
    have := congrArg (List.map (Option.map Descriptor.index)) hentries
    simpa [Function.comp_def, Claim.descriptor?] using this
  rw [reconcile_def, reconcile_of_describes h.ascending hentries hperm]
  simp only [assignAll_self _ hindices]
  cases s
  simp [Edited.unchanged, RegistryReport.isUnchanged]

/-- Renaming a node changes no declared field. -/
theorem claims_rename (name : String) {nodes : List (SequenceEntry H)} {position : Nat}
    {entry : SequenceEntry H} (h : nodes[position]? = some entry) :
    claims (nodes.set position { entry with name }) = claims nodes := by
  obtain ⟨hlt, rfl⟩ := List.getElem?_eq_some_iff.mp h
  conv_rhs => rw [← List.take_append_drop position nodes, List.drop_eq_getElem_cons hlt]
  rw [List.set_eq_take_append_cons_drop, if_pos hlt]
  simp only [claims, List.flatMap_append, List.flatMap_cons]

/-- A call leaves a sequence in step that was in step before. -/
theorem InSync.apply {s : Sequence H} (h : s.InSync) (e : Edit H) :
    (e.apply s).sequence.InSync := by
  obtain heq | ⟨nodes, heq⟩ | ⟨position, entry, name, hat, heq⟩ := e.apply_cases s
  · rw [heq]; exact h
  · rw [heq]; exact inSync_reconcile h.ascending
  · rw [heq]
    refine ⟨?_, h.ascending⟩
    show ((claims (s.nodes.set position { entry with name })).map Claim.descriptor?).Perm _
    rw [claims_rename name hat]
    exact h.describes

theorem InSync.author {s : Sequence H} (h : s.InSync) (edits : List (Edit H)) :
    (s.author edits).InSync := by
  induction edits generalizing s with
  | nil => exact h
  | cons e rest ih => exact ih (h.apply e)

theorem inSync_new (id : SequenceId) (name : String) (parallel : Bool) :
    (Sequence.new id name parallel : Sequence H).InSync :=
  ⟨.refl _, .nil⟩

/-- In step, the entry of a declared field is the only one under its index. -/
theorem InSync.filter_index {s : Sequence H} (h : s.InSync) {c : Claim}
    (hc : c ∈ claims s.nodes) :
    ∃ index, c.declaration.field.index = some index ∧
      s.registry.filter (·.index == index) = [c.descriptor index] := by
  obtain ⟨d, hd, hcd⟩ : ∃ d ∈ s.registry, c.descriptor? = some d := by
    obtain ⟨d, hd, heq⟩ :=
      List.mem_map.mp (h.describes.mem_iff.mp (List.mem_map_of_mem hc))
    exact ⟨d, hd, heq.symm⟩
  obtain ⟨hindex, hentry⟩ := Claim.descriptor?_eq_some_iff.mp hcd
  refine ⟨d.index, hindex, ?_⟩
  have hiff : ∀ e, e ∈ s.registry.filter (·.index == d.index) ↔ e ∈ [d] := by
    intro e
    rw [List.mem_filter, List.mem_singleton, beq_iff_eq]
    constructor
    · rintro ⟨he, heq⟩
      exact h.ascending.eq_of_index_eq he hd heq
    · rintro rfl
      exact ⟨hd, rfl⟩
  rw [hentry]
  exact List.perm_singleton.mp ((List.perm_ext_iff_of_nodup (h.ascending.nodup.filter _)
    (List.nodup_singleton d)).mpr hiff)

/-! ### Sequences within sequences -/

/-- A sequence that calls made, out of nodes that nest such sequences only. How it is identified and
named, and whether its nodes run at once, is open to its authors at any time. -/
inductive Authored : Sequence H → Prop
  | new (id : SequenceId) (name : String) (parallel : Bool) :
      Authored (Sequence.new id name parallel)
  | edit {s : Sequence H} (e : Edit H) : Authored s →
      (∀ n ∈ (e.apply s).sequence.nestedSequences, Authored n.2) → Authored (e.apply s).sequence
  | retitle {s : Sequence H} (id : SequenceId) (name : String) (parallel : Bool) :
      Authored s → Authored { s with id, name, parallel }

/-- A sequence as in `Authored`, the calls of which have 32 bits for their sums. -/
inductive Authored32 : Sequence H → Prop
  | new (id : SequenceId) (name : String) (parallel : Bool) :
      Authored32 (Sequence.new id name parallel)
  | edit {s s' : Sequence H} (e : Edit H) : Authored32 s → e.apply32? s = some s' →
      (∀ n ∈ s'.nestedSequences, Authored32 n.2) → Authored32 s'
  | retitle {s : Sequence H} (id : SequenceId) (name : String) (parallel : Bool) :
      Authored32 s → Authored32 { s with id, name, parallel }

/-- 32 bits lead nowhere else than sums that always fit. -/
theorem Authored32.authored {s : Sequence H} (h : s.Authored32) : s.Authored := by
  induction h with
  | new id name parallel => exact .new id name parallel
  | edit e _ happly _ ih ihs =>
      obtain ⟨rfl, -⟩ := Edit.apply_of_checked happly
      exact .edit e ih ihs
  | retitle id name parallel _ ih => exact .retitle id name parallel ih

namespace Authored

theorem inSync {s : Sequence H} (h : s.Authored) : s.InSync := by
  induction h with
  | new id name parallel => exact inSync_new id name parallel
  | edit e _ _ ih _ => exact ih.apply e
  | retitle id name parallel _ ih => exact ⟨ih.describes, ih.ascending⟩

theorem nested {s : Sequence H} (h : s.Authored) : ∀ n ∈ s.nestedSequences, n.2.Authored := by
  induction h with
  | new id name parallel => simp [Sequence.new, nestedSequences]
  | edit e _ hnested _ _ => exact hnested
  | retitle id name parallel _ ih => exact ih

end Authored

end Sequence

end Sequencer
