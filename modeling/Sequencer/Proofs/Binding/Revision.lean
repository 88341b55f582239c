import Sequencer.Proofs.Binding.Resolve
import Sequencer.Proofs.Registry.Survival

/-!
# Sequencer.Proofs.Binding.Revision

Bindings follow fields while a template is being edited.

A `Draft` is a sequence with the bindings of one of its players. Between an edit and the next
reconciliation of the bindings the two are apart, by any number of edits. Still, a field that stays
declared all the time keeps its index, and with it the slots that it had.

* `Revision.Gentle`: a reconciliation of the bindings, or an edit that cannot take an index from a
  field (`Edit.Gentle`);
* `Draft.follow`: where a node goes meanwhile, if it is not removed;
* `Draft.Follows`: what every gentle revision preserves of a node, its fields and their slots;
* `Draft.revise_follows`: after all of them, the node is as it was, and its fields resolve as they
  did.
-/

namespace Sequencer

variable {H : Host}

/-- A sequence that is being edited, and the bindings of a player of it. -/
structure Draft (H : Host) where
  /-- The sequence. -/
  sequence : Sequence H
  /-- The bindings. -/
  bindings : Bindings

/-- A sequence with bindings that were reconciled with it just now, whatever they were before. -/
def Sequence.draft (s : Sequence H) (b : Bindings) : Draft H := ⟨s, (b.reconcile s).bindings⟩

/-- A step in the work on a draft. -/
inductive Revision (H : Host)
  /-- The sequence is edited. -/
  | edit (e : Edit H)
  /-- The bindings are reconciled with the sequence. -/
  | bind

namespace Revision

/-- A revision that leaves the indices alone that fields have. -/
def Gentle : Revision H → Prop
  | edit e => e.Gentle
  | bind => True

/-- The place of a node after a revision. -/
def follow (d : Draft H) (i : Nat) : Revision H → Option Nat
  | edit e => e.follow d.sequence i
  | bind => some i

/-- The draft after a revision. -/
def apply (d : Draft H) : Revision H → Draft H
  | edit e => { d with sequence := (e.apply d.sequence).sequence }
  | bind => { d with bindings := (d.bindings.reconcile d.sequence).bindings }

end Revision

namespace Draft

open Bindings

/-- The draft after some revisions. -/
def revise (d : Draft H) (revisions : List (Revision H)) : Draft H :=
  revisions.foldl Revision.apply d

/-- The place of a node after some revisions, if none of them removes it. -/
def follow (d : Draft H) (i : Nat) : List (Revision H) → Option Nat
  | [] => some i
  | r :: rest => (r.follow d i).bind fun i => (r.apply d).follow i rest

variable {d : Draft H} {i j : Nat} {entry : SequenceEntry H} {valueOf : Declaration → Value}

/-- A node has the place `i` and is as it was, and all that the bindings have for one of its fields,
in the root's own group, comes to the value that the field had. -/
structure Follows (d : Draft H) (id : SequenceId) (i : Nat) (entry : SequenceEntry H)
    (valueOf : Declaration → Value) : Prop where
  /-- The sequence is in step with its registry. -/
  inSync : d.sequence.InSync
  /-- It is still the same sequence. -/
  id_eq : d.sequence.id = id
  /-- The node is as it was, but for its display name. -/
  node : ∃ name, d.sequence.nodes[i]? = some { entry with name }
  /-- Whatever slot is taken up for one of its fields, the value is the same. -/
  offers : ∀ c ∈ entry.node.declarations, ∀ index, c.field.index = some index →
    ∀ found, d.bindings.Offers ⟨id, .root⟩ ⟨index, c.type⟩ found → c.field.valueOf found = valueOf c

/-- What reconciled bindings have for a field of the root comes to one value, that of something that
the bindings had for it before. -/
theorem valueOf_reconcile {s : Sequence H} (h : s.InSync) (hentry : entry ∈ s.nodes)
    (b : Bindings) {c : Declaration} (hc : c ∈ entry.node.declarations) {index : OverrideIndex}
    (hindex : c.field.index = some index) :
    ∃ before, b.Offers ⟨s.id, .root⟩ ⟨index, c.type⟩ before ∧
      ∀ found, (b.reconcile s).bindings.Offers ⟨s.id, .root⟩ ⟨index, c.type⟩ found →
        c.field.valueOf found = c.field.valueOf before := by
  obtain ⟨descriptor, hdescriptor, hat, htype, -⟩ := h.exists_entry (c := ⟨entry.id, c⟩)
    (Sequence.mem_claims hentry hc)
  have hkey : descriptor.key = ⟨index, c.type⟩ := by
    rw [Descriptor.key, htype, Option.some.inj (hat.symm.trans hindex)]
    rfl
  obtain ⟨before, hbefore, hunique⟩ := Bindings.offers_of_reconcile b
    (Sequence.root_mem_targets (List.ne_nil_of_mem hdescriptor)) h.tidy hdescriptor
  refine ⟨before, hkey ▸ hbefore, fun found hfound => ?_⟩
  rw [hunique found (hkey ▸ hfound), Bindings.valueOf_slotFor htype hbefore.key_eq]

/-- A gentle revision preserves it. -/
theorem Follows.apply {id : SequenceId} (h : d.Follows id i entry valueOf) {r : Revision H}
    (hgentle : r.Gentle) (hj : r.follow d i = some j) :
    (r.apply d).Follows id j entry valueOf := by
  obtain ⟨name, hnode⟩ := h.node
  cases r with
  | edit e =>
      obtain ⟨name', hnode'⟩ := Edit.follow_keeps h.inSync hgentle hnode hj
      exact ⟨h.inSync.apply e, (e.id_apply _).trans h.id_eq, ⟨name', hnode'⟩, h.offers⟩
  | bind =>
      obtain rfl : i = j := Option.some.inj hj
      refine ⟨h.inSync, h.id_eq, ⟨name, hnode⟩, fun c hc index hindex found hfound => ?_⟩
      obtain ⟨before, hbefore, hvalue⟩ := valueOf_reconcile h.inSync
        (List.mem_of_getElem? hnode) d.bindings hc hindex
      rw [h.id_eq] at hbefore hvalue
      rw [hvalue found hfound]
      exact h.offers c hc index hindex before hbefore

theorem Follows.revise {id : SequenceId} (h : d.Follows id i entry valueOf)
    {revisions : List (Revision H)} (hgentle : ∀ r ∈ revisions, r.Gentle)
    (hj : d.follow i revisions = some j) : (d.revise revisions).Follows id j entry valueOf := by
  induction revisions generalizing d i with
  | nil =>
      obtain rfl : i = j := Option.some.inj hj
      exact h
  | cons r rest ih =>
      obtain ⟨k, hk, hj⟩ := Option.bind_eq_some_iff.mp hj
      exact ih (h.apply (hgentle r List.mem_cons_self) hk)
        (fun r hr => hgentle r (List.mem_cons_of_mem _ hr)) hj

/-- The value that a field of the node resolves to, as long as it is followed. -/
theorem Follows.resolveValue {id : SequenceId} (h : d.Follows id i entry valueOf) {c : Declaration}
    (hc : c ∈ entry.node.declarations) {index : OverrideIndex}
    (hindex : c.field.index = some index) :
    d.bindings.resolveValue c.field ⟨id, .root⟩ = valueOf c := by
  rw [Bindings.resolveValue_eq d.bindings hindex]
  exact h.offers c hc index hindex _ (Bindings.offers_first d.bindings ⟨id, .root⟩ index c.type)

/-- **Bindings follow fields.** Start from a sequence that any history of calls has made, and from
any bindings, reconciled with it. After any gentle revisions of the two, a node that was never
removed is as it was, at the place that it went to, but for its display name. Each of its declared
fields has the index that it had, with the same entry in the registry, and resolves to the value
that it had, both before and after a final reconciliation of the bindings. -/
theorem revise_follows (id : SequenceId) (name : String) (parallel : Bool) (edits : List (Edit H))
    (b : Bindings) {revisions : List (Revision H)} (hgentle : ∀ r ∈ revisions, r.Gentle)
    {i j : Nat} {entry : SequenceEntry H}
    (hi : ((Sequence.new id name parallel : Sequence H).author edits).nodes[i]? = some entry)
    (hj : (((Sequence.new id name parallel : Sequence H).author edits).draft b).follow i revisions
      = some j) :
    let s := (Sequence.new id name parallel : Sequence H).author edits
    let d := s.draft b
    let after := d.revise (revisions ++ [.bind])
    (∃ name, after.sequence.nodes[j]? = some { entry with name }) ∧
    ∀ c ∈ entry.node.declarations, ∃ index, c.field.index = some index ∧
      s.registry.filter (·.index == index) = [.ofDeclaration index entry.id c] ∧
      after.sequence.registry.filter (·.index == index) = [.ofDeclaration index entry.id c] ∧
      (d.revise revisions).bindings.resolveValue c.field ⟨id, .root⟩
        = d.bindings.resolveValue c.field ⟨id, .root⟩ ∧
      after.bindings.resolveValue c.field ⟨id, .root⟩
        = d.bindings.resolveValue c.field ⟨id, .root⟩ ∧
      ∀ (α : Type) [ValueKind α] (typed : Field α), typed.toDynamic = c.field →
        after.bindings.resolve typed ⟨id, .root⟩ = d.bindings.resolve typed ⟨id, .root⟩ := by
  intro s d after
  have hsync : s.InSync := (Sequence.inSync_new id name parallel).author edits
  have hid : s.id = id := Sequence.id_author _ edits
  let valueOf := fun c : Declaration => d.bindings.resolveValue c.field ⟨id, .root⟩
  have hstart : d.Follows id i entry valueOf := by
    refine ⟨hsync, hid, ⟨entry.name, hi⟩, fun c hc index hindex found hfound => ?_⟩
    obtain ⟨before, -, hvalue⟩ := valueOf_reconcile hsync (List.mem_of_getElem? hi) b hc hindex
    rw [hid] at hvalue
    rw [hvalue found hfound, ← hvalue _ (Bindings.offers_first _ _ index c.type)]
    exact (Bindings.resolveValue_eq _ hindex _).symm
  have hmid := hstart.revise hgentle hj
  -- the final reconciliation is one more gentle revision
  have hend : after.Follows id j entry valueOf := by
    have happly : after = Revision.bind.apply (d.revise revisions) := by
      rw [show after = d.revise (revisions ++ [.bind]) from rfl, revise, List.foldl_append]
      rfl
    rw [happly]
    exact hmid.apply trivial rfl
  obtain ⟨name', hnode⟩ := hend.node
  refine ⟨⟨name', hnode⟩, fun c hc => ?_⟩
  have hbefore : (⟨entry.id, c⟩ : Registry.Claim) ∈ Sequence.claims s.nodes :=
    Sequence.mem_claims (List.mem_of_getElem? hi) hc
  obtain ⟨index, hindex, hentry⟩ := hsync.filter_index hbefore
  have hafter : (⟨entry.id, c⟩ : Registry.Claim) ∈ Sequence.claims after.sequence.nodes :=
    Sequence.mem_claims (List.mem_of_getElem? hnode) hc
  obtain ⟨index', hindex', hentry'⟩ := hend.inSync.filter_index hafter
  obtain rfl : index = index' := Option.some.inj (hindex.symm.trans hindex')
  have hvalue := hend.resolveValue hc hindex
  refine ⟨index, hindex, hentry, hentry', hmid.resolveValue hc hindex, hvalue, ?_⟩
  intro α _ typed htyped
  rw [Bindings.resolve, Bindings.resolve, htyped, hvalue]

/-- Second thoughts on a dialogue: the first line is dropped, another one opens it, the last line
comes first under another name, and a copy of it is added. -/
def rewrites : List (Revision Host.none) := [
  .edit (.erase ⟨.ofNat 1⟩),
  .bind,
  .edit (.insert 0 ⟨.ofNat 3⟩ (.log (.new "Welcome") .info)),
  .edit (.rename ⟨.ofNat 2⟩ "Parting"),
  .edit (.move ⟨.ofNat 2⟩ 0),
  .edit (.add ⟨.ofNat 4⟩ (.log ⟨some ⟨1⟩, "Bye"⟩ .info))]

/-- The last line is still overridden. -/
theorem revise_follows_rewrites :
    (dialogue.draft polite).follow 1 rewrites = some 0 ∧
    ((dialogue.draft polite).revise (rewrites ++ [.bind])).bindings.resolveValue
      goodbye.declaration.field ⟨dialogue.id, .root⟩ = .string "Farewell" := by
  have hgentle : ∀ r ∈ rewrites, r.Gentle := by
    simp [rewrites, Revision.Gentle, Edit.Gentle, Node.declarations, Field.toDynamic, Field.new]
  have hfollow : (dialogue.draft polite).follow 1 rewrites = some 0 := by decide +kernel
  obtain ⟨-, hfields⟩ := revise_follows ⟨.ofNat 2⟩ "dialogue" false
    [.add ⟨.ofNat 1⟩ (.log (.new "Hello") .info), .add ⟨.ofNat 2⟩ (.log (.new "Goodbye") .info)]
    polite hgentle (i := 1) rfl hfollow
  obtain ⟨index, hindex, -, -, -, hvalue, -⟩ := hfields goodbye.declaration List.mem_cons_self
  have hbefore : (dialogue.draft polite).bindings.resolveValue goodbye.declaration.field
      ⟨dialogue.id, .root⟩ = .string "Farewell" := by decide +kernel
  exact ⟨hfollow, hvalue.trans hbefore⟩

end Draft

end Sequencer
