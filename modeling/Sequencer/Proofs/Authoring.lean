import Sequencer.Proofs.Registry.Counting
import Sequencer.Sequence

/-!
# Sequencer.Proofs.Authoring

The calls that author a sequence, as data, so that a whole history of them is a list.

* `Sequence.insert`, `erase` and so on: what a call returns and leaves if all its sums fit;
* `Edit`: one call, with its arguments; `Edit.run_cases` says all that a call can do, with any way
  of counting;
* `Edit.apply`: what the call leaves and reports if all its sums fit; `Edit.outcome32?` is what
  becomes of the call if they are checked, and `Edit.wrapped` if they wrap around. A call that is
  not ended comes to the same in all three ways (`Edit.outcome_of_checked`);
* `Sequence.author`: a history of calls, from the first to the last.
-/

namespace Sequencer

variable {H : Host}

namespace Sequence

/-! ### Calls whose sums fit -/

/-- What a reconciliation leaves and reports, with any way of counting. -/
def reconcileM {m : Type → Type} [Monad m] (counting : Counting m) (s : Sequence H) :
    m (Edited H) := do
  let outcome ← s.registry.reconcileM counting (claims s.nodes)
  return {
    sequence :=
      { s with nodes := assignAll s.nodes outcome.indices, registry := outcome.registry }
    report := outcome.report
    notices :=
      outcome.duplicates.map (.declaredTwice s.name)
        ++ if outcome.report.isUnchanged then [] else [.registryReconciled s.name outcome.report] }

/-- What a reconciliation leaves and reports. -/
def reconcile (s : Sequence H) : Edited H := Id.run (s.reconcileM .unbounded)

theorem reconcile_def (s : Sequence H) :
    s.reconcile =
      let outcome := s.registry.reconcile (claims s.nodes)
      { sequence :=
          { s with nodes := assignAll s.nodes outcome.indices, registry := outcome.registry }
        report := outcome.report
        notices :=
          outcome.duplicates.map (.declaredTwice s.name)
            ++ if outcome.report.isUnchanged then []
              else [.registryReconciled s.name outcome.report] } := rfl

/-- The sequence with another node list, reconciled. -/
def withNodes (s : Sequence H) (nodes : List (SequenceEntry H)) : Edited H :=
  reconcile { s with nodes }

variable (s : Sequence H)

/-- Appends a node. -/
def add (id : NodeId) (node : SequenceNode H) : NodeId × Edited H :=
  Id.run ((Editing.add .unbounded id node).run (.unchanged s))

/-- Inserts a node at a position, which may be the end. -/
def insert (position : Nat) (id : NodeId) (node : SequenceNode H) :
    Except SequenceError NodeId × Edited H :=
  Id.run ((Editing.insert .unbounded position id node).run (.unchanged s))

/-- Removes a node, and with it the entries of its fields. -/
def erase (id : NodeId) : Option (SequenceEntry H) × Edited H :=
  Id.run ((Editing.erase .unbounded id).run (.unchanged s))

/-- Moves a node to another position. -/
def move (id : NodeId) (target : Nat) : Except SequenceError Unit × Edited H :=
  Id.run ((Editing.move .unbounded id target).run (.unchanged s))

/-- Changes a node's configuration, and returns what the change returns. -/
def edit {α : Type} (id : NodeId) (change : SequenceNode H → α × SequenceNode H) :
    Option α × Edited H :=
  Id.run ((Editing.edit .unbounded id change).run (.unchanged s))

/-- Changes a node's display name. -/
def rename (id : NodeId) (name : String) : Bool × Edited H :=
  Id.run ((Editing.rename id name).run (.unchanged s))

end Sequence

/-! ### Calls as data -/

/-- One call that authors a sequence. -/
inductive Edit (H : Host)
  /-- Appends a node. -/
  | add (id : NodeId) (node : SequenceNode H)
  /-- Inserts a node at a position. -/
  | insert (position : Nat) (id : NodeId) (node : SequenceNode H)
  /-- Removes a node. -/
  | erase (id : NodeId)
  /-- Moves a node to a position. -/
  | move (id : NodeId) (target : Nat)
  /-- Changes a node's configuration in any way: its indices, its values, which fields it
  declares. -/
  | edit (id : NodeId) (change : SequenceNode H → SequenceNode H)
  /-- Changes a node's display name. -/
  | rename (id : NodeId) (name : String)
  /-- Reconciles the registry. -/
  | reconcile

namespace Edit

/-- What a call returns. -/
def Result : Edit H → Type
  | add .. => NodeId
  | insert .. => Except SequenceError NodeId
  | erase .. => Option (SequenceEntry H)
  | move .. => Except SequenceError Unit
  | edit .. => Option Unit
  | rename .. => Bool
  | reconcile => RegistryReport

section Run

variable {m : Type → Type} [Monad m] (counting : Counting m)

/-- The call. -/
def run : (e : Edit H) → Sequence.Editing m H e.Result
  | add id node => Sequence.Editing.add counting id node
  | insert position id node => Sequence.Editing.insert counting position id node
  | erase id => Sequence.Editing.erase counting id
  | move id target => Sequence.Editing.move counting id target
  | edit id change => Sequence.Editing.edit counting id fun node => ((), change node)
  | rename id name => Sequence.Editing.rename id name
  | reconcile => Sequence.Editing.reconcile counting

end Run

end Edit

/-! ### What the calls do -/

namespace Sequence.Editing

variable {m : Type → Type} [Monad m] {α : Type}

@[simp] theorem run_setNodes (nodes : List (SequenceEntry H)) (e : Edited H) :
    (setNodes nodes : Editing m H Unit).run e
      = pure ((), { e with sequence := { e.sequence with nodes } }) := rfl

variable [LawfulMonad m] (counting : Counting m) (s : Sequence H)

/-- An edit starts with the sequence that there is. -/
theorem run_current_bind (f : Sequence H → Editing m H α) :
    (current >>= f).run (.unchanged s) = (f s).run (.unchanged s) := by
  simp [current, Edited.unchanged]

/-- A reconciliation returns what it reports. -/
theorem run_reconcile :
    (reconcile counting).run (.unchanged s)
      = (fun edited => (edited.report, edited)) <$> s.reconcileM counting := by
  rw [reconcile, run_current_bind]
  simp [reconcileM, Edited.unchanged]

/-- What the edits of the node list end with. -/
theorem run_relist (nodes : List (SequenceEntry H)) (a : α) :
    (do setNodes nodes; let _ ← reconcile counting; return a : Editing m H α).run (.unchanged s)
      = (fun edited => (a, edited)) <$> ({ s with nodes } : Sequence H).reconcileM counting := by
  have hrun := run_reconcile counting { s with nodes }
  rw [Edited.unchanged] at hrun
  simp [Edited.unchanged, hrun]

theorem run_add (id : NodeId) (node : SequenceNode H) :
    (add counting id node).run (.unchanged s) = (fun edited => (id, edited)) <$>
      ({ s with nodes := s.nodes ++ [.new id node] } : Sequence H).reconcileM counting := by
  rw [add, run_current_bind]
  exact run_relist counting s _ id

theorem run_insert (position : Nat) (id : NodeId) (node : SequenceNode H) :
    (insert counting position id node).run (.unchanged s) =
      if s.length < position then
        pure (.error (.indexOutOfRange position s.length), .unchanged s)
      else (fun edited => (.ok id, edited)) <$>
        ({ s with nodes := s.nodes.insertIdx position (.new id node) } : Sequence H).reconcileM
          counting := by
  rw [insert, run_current_bind]
  split
  · rfl
  · exact run_relist counting s _ (Except.ok id)

theorem run_erase (id : NodeId) :
    (erase counting id).run (.unchanged s) =
      match s.locate? id with
      | none => pure (none, .unchanged s)
      | some (position, removed) => (fun edited => (some removed, edited)) <$>
          ({ s with nodes := s.nodes.eraseIdx position } : Sequence H).reconcileM counting := by
  rw [erase, run_current_bind]
  rcases s.locate? id with _ | ⟨position, removed⟩
  · rfl
  · exact run_relist counting s _ (some removed)

theorem run_move (id : NodeId) (target : Nat) :
    (move counting id target).run (.unchanged s) =
      match s.locate? id with
      | none => pure (.error (.nodeNotFound id), .unchanged s)
      | some (position, entry) =>
        if s.length ≤ target then
          pure (.error (.indexOutOfRange target s.length), .unchanged s)
        else (fun edited => (.ok (), edited)) <$>
          ({ s with nodes := (s.nodes.eraseIdx position).insertIdx target entry } :
            Sequence H).reconcileM counting := by
  rw [move, run_current_bind]
  rcases s.locate? id with _ | ⟨position, entry⟩
  · rfl
  dsimp only
  split
  · rfl
  · -- the node is taken out first, which the next replacement of the list includes
    rw [StateT.run_bind, run_setNodes, pure_bind]
    exact run_relist counting { s with nodes := s.nodes.eraseIdx position } _ (Except.ok ())

theorem run_edit (id : NodeId) (change : SequenceNode H → α × SequenceNode H) :
    (edit counting id change).run (.unchanged s) =
      match s.locate? id with
      | none => pure (none, .unchanged s)
      | some (position, entry) => (fun edited => (some (change entry.node).1, edited)) <$>
          ({ s with nodes := s.nodes.set position { entry with node := (change entry.node).2 } } :
            Sequence H).reconcileM counting := by
  rw [edit, run_current_bind]
  rcases s.locate? id with _ | ⟨position, entry⟩
  · rfl
  · exact run_relist counting s _ (some (change entry.node).1)

theorem run_rename (id : NodeId) (name : String) :
    (rename id name : Editing m H Bool).run (.unchanged s) =
      match s.locate? id with
      | none => pure (false, .unchanged s)
      | some (position, entry) =>
        pure (true, .unchanged { s with nodes := s.nodes.set position { entry with name } }) := by
  rw [rename, run_current_bind]
  rcases s.locate? id with _ | ⟨position, entry⟩
  · rfl
  · simp [Edited.unchanged]

end Sequence.Editing

namespace Sequence

/-- A node that has a position is found there. -/
theorem locate?_of_position? {s : Sequence H} {id : NodeId} {position : Nat}
    (h : s.position? id = some position) :
    ∃ entry, s.locate? id = some (position, entry) ∧ s.nodes[position]? = some entry := by
  obtain ⟨hlt, -, -⟩ := List.findIdx?_eq_some_iff_getElem.mp h
  have hat : s.nodes[position]? = some s.nodes[position] := List.getElem?_eq_getElem hlt
  exact ⟨_, by rw [locate?, h, Option.bind_eq_bind, Option.bind_some, hat]; rfl, hat⟩

theorem locate?_of_position?_none {s : Sequence H} {id : NodeId} (h : s.position? id = none) :
    s.locate? id = none := by
  rw [locate?, h]
  rfl

theorem locate?_eq_some {s : Sequence H} {id : NodeId} {position : Nat} {entry : SequenceEntry H}
    (h : s.locate? id = some (position, entry)) :
    s.position? id = some position ∧ s.nodes[position]? = some entry := by
  obtain ⟨found, hfound, -⟩ := Option.bind_eq_some_iff.mp h
  obtain ⟨e, hlocate, hat⟩ := locate?_of_position? hfound
  obtain ⟨rfl, rfl⟩ := Prod.mk.inj (Option.some.inj (hlocate.symm.trans h))
  exact ⟨hfound, hat⟩

end Sequence

namespace Edit

open Sequence.Editing

/-- **What a call can do**, with any way of counting. It gives the sequence another node list and
reconciles; or it counts nothing, and leaves the sequence alone or changes a display name. -/
theorem run_cases (s : Sequence H) (e : Edit H) :
    (∃ nodes, ∃ result : Sequence.Edited H → e.Result,
      ∀ {m : Type → Type} [Monad m] [LawfulMonad m] (counting : Counting m),
        (e.run counting).run (.unchanged s) = (fun edited => (result edited, edited)) <$>
          ({ s with nodes } : Sequence H).reconcileM counting) ∨
    ∃ result edited,
      (∀ {m : Type → Type} [Monad m] [LawfulMonad m] (counting : Counting m),
        (e.run counting).run (.unchanged s) = pure (result, edited)) ∧
      (edited = .unchanged s ∨ ∃ position entry name, s.nodes[position]? = some entry ∧
        edited = .unchanged { s with nodes := s.nodes.set position { entry with name } }) := by
  cases e with
  | add id node => exact .inl ⟨_, fun _ => id, fun counting => run_add counting s id node⟩
  | insert position id node =>
      by_cases h : s.length < position
      · exact .inr ⟨_, _, fun counting => (run_insert counting s position id node).trans (if_pos h),
          .inl rfl⟩
      · exact .inl ⟨_, fun _ => .ok id, fun counting =>
          (run_insert counting s position id node).trans (if_neg h)⟩
  -- calls on a node, which is looked up in the same way however sums are taken
  | erase id =>
      have hrun {m : Type → Type} [Monad m] [LawfulMonad m] (counting : Counting m) :=
        run_erase counting s id
      generalize s.locate? id = found at hrun
      rcases found with _ | ⟨position, removed⟩
      · exact .inr ⟨none, .unchanged s, hrun, .inl rfl⟩
      · exact .inl ⟨_, fun _ => some removed, hrun⟩
  | move id target =>
      have hrun {m : Type → Type} [Monad m] [LawfulMonad m] (counting : Counting m) :=
        run_move counting s id target
      generalize s.locate? id = found at hrun
      rcases found with _ | ⟨position, entry⟩
      · exact .inr ⟨.error (.nodeNotFound id), .unchanged s, hrun, .inl rfl⟩
      by_cases hlength : s.length ≤ target
      · exact .inr ⟨_, _, fun counting => (hrun counting).trans (if_pos hlength), .inl rfl⟩
      · exact .inl ⟨_, fun _ => .ok (), fun counting => (hrun counting).trans (if_neg hlength)⟩
  | edit id change =>
      have hrun {m : Type → Type} [Monad m] [LawfulMonad m] (counting : Counting m) :=
        run_edit counting s id fun node => ((), change node)
      generalize s.locate? id = found at hrun
      rcases found with _ | ⟨position, entry⟩
      · exact .inr ⟨none, .unchanged s, hrun, .inl rfl⟩
      · exact .inl ⟨_, fun _ => some (), hrun⟩
  | rename id name =>
      have hrun {m : Type → Type} [Monad m] [LawfulMonad m] (_ : Counting m) :=
        run_rename (m := m) s id name
      generalize hfound : s.locate? id = found at hrun
      rcases found with _ | ⟨position, entry⟩
      · exact .inr ⟨false, .unchanged s, hrun, .inl rfl⟩
      · have hat := (Sequence.locate?_eq_some hfound).2
        exact .inr ⟨true, _, hrun, .inr ⟨position, entry, name, hat, rfl⟩⟩
  | reconcile =>
      exact .inl ⟨s.nodes, Sequence.Edited.report, fun counting => run_reconcile counting s⟩

/-- What a call returns and leaves. -/
def outcome (s : Sequence H) (e : Edit H) : e.Result × Sequence.Edited H :=
  Id.run ((e.run .unbounded).run (.unchanged s))

/-- What a call leaves and reports. -/
def apply (s : Sequence H) (e : Edit H) : Sequence.Edited H := (e.outcome s).2

/-- What a call leaves: the sequence alone, reconciled with another node list, or with another
display name. -/
theorem apply_cases (s : Sequence H) (e : Edit H) :
    e.apply s = .unchanged s ∨ (∃ nodes, e.apply s = s.withNodes nodes) ∨
    ∃ position entry name, s.nodes[position]? = some entry ∧
      e.apply s = .unchanged { s with nodes := s.nodes.set position { entry with name } } := by
  obtain ⟨nodes, result, hrun⟩ | ⟨result, edited, hrun, hedited⟩ := e.run_cases s
  · exact .inr (.inl ⟨nodes, congrArg Prod.snd (hrun .unbounded)⟩)
  · have happly : e.apply s = edited := congrArg Prod.snd (hrun .unbounded)
    rw [happly]
    exact hedited.imp_right .inr

/-- No call changes which sequence it is. -/
@[simp] theorem id_apply (s : Sequence H) (e : Edit H) : (e.apply s).sequence.id = s.id := by
  obtain heq | ⟨nodes, heq⟩ | ⟨position, entry, name, -, heq⟩ := e.apply_cases s
  · rw [heq]; rfl
  · rw [heq]; rfl
  · rw [heq]; rfl

/-- What a call returns and leaves, if no sum ends it. -/
def outcome32? (s : Sequence H) (e : Edit H) : Option (e.Result × Sequence.Edited H) :=
  (e.run .checked).run (.unchanged s)

/-- The sequence that a call leaves, if no sum ends it. -/
def apply32? (s : Sequence H) (e : Edit H) : Option (Sequence H) :=
  (e.outcome32? s).map (·.2.sequence)

/-- What a call returns and leaves whose sums wrap around. -/
def wrapped (s : Sequence H) (e : Edit H) : e.Result × Sequence.Edited H :=
  Id.run ((e.run .wrapping).run (.unchanged s))

end Edit

namespace Sequence

/-- Reconciliations of sequences agree as those of registries do. -/
theorem agrees_reconcileM {counting : Counting Id} (h : counting.Exact) (s : Sequence H) :
    Agrees (s.reconcileM .checked) (s.reconcileM counting) :=
  (Registry.agrees_reconcileM h s.registry (claims s.nodes)).bind fun _ => .pure _

end Sequence

namespace Edit

/-- What a checked call comes to, every one comes to whose counting is exact. -/
theorem agrees_run {counting : Counting Id} (h : counting.Exact) (s : Sequence H) (e : Edit H) :
    Agrees ((e.run .checked).run (.unchanged s)) ((e.run counting).run (.unchanged s)) := by
  obtain ⟨nodes, result, hrun⟩ | ⟨result, edited, hrun, -⟩ := e.run_cases s
  · rw [hrun, hrun, map_eq_pure_bind, map_eq_pure_bind]
    exact (Sequence.agrees_reconcileM h { s with nodes }).bind fun _ => .pure _
  · rw [hrun, hrun]
    exact .pure _

/-- **32 bits.** If no sum ends a call, then it does what it would do if all sums fit, and what it
would do if they wrapped around. -/
theorem outcome_of_checked {s : Sequence H} {e : Edit H} {r : e.Result × Sequence.Edited H}
    (h : e.outcome32? s = some r) : e.outcome s = r ∧ e.wrapped s = r :=
  ⟨e.agrees_run Counting.exact_unbounded s r h, e.agrees_run Counting.exact_wrapping s r h⟩

theorem apply_of_checked {s s' : Sequence H} {e : Edit H} (h : e.apply32? s = some s') :
    (e.apply s).sequence = s' ∧ (e.wrapped s).2.sequence = s' := by
  obtain ⟨r, hr, rfl⟩ := Option.map_eq_some_iff.mp h
  obtain ⟨hfits, hwraps⟩ := outcome_of_checked hr
  exact ⟨by rw [apply, hfits], by rw [hwraps]⟩

end Edit

namespace Sequence

open Editing

section Fit

variable {s : Sequence H} {id : NodeId} {position target : Nat} {entry : SequenceEntry H}

theorem add_eq (s : Sequence H) (id : NodeId) (node : SequenceNode H) :
    s.add id node = (id, s.withNodes (s.nodes ++ [.new id node])) :=
  run_add .unbounded s id node

theorem insert_of_le (h : position ≤ s.length) (id : NodeId) (node : SequenceNode H) :
    s.insert position id node = (.ok id, s.withNodes (s.nodes.insertIdx position (.new id node))) :=
  (run_insert .unbounded s position id node).trans (if_neg (Nat.not_lt.mpr h))

theorem insert_of_lt (h : s.length < position) (id : NodeId) (node : SequenceNode H) :
    s.insert position id node = (.error (.indexOutOfRange position s.length), .unchanged s) :=
  (run_insert .unbounded s position id node).trans (if_pos h)

theorem erase_of_none (h : s.locate? id = none) : s.erase id = (none, .unchanged s) := by
  rw [erase, run_erase, h]
  rfl

theorem erase_of_some (h : s.locate? id = some (position, entry)) :
    s.erase id = (some entry, s.withNodes (s.nodes.eraseIdx position)) := by
  rw [erase, run_erase, h]
  rfl

theorem move_of_none (h : s.locate? id = none) (target : Nat) :
    s.move id target = (.error (.nodeNotFound id), .unchanged s) := by
  rw [move, run_move, h]
  rfl

theorem move_of_le (h : s.locate? id = some (position, entry)) (htarget : s.length ≤ target) :
    s.move id target = (.error (.indexOutOfRange target s.length), .unchanged s) := by
  rw [move, run_move, h]
  exact if_pos htarget

theorem move_of_lt (h : s.locate? id = some (position, entry)) (htarget : target < s.length) :
    s.move id target
      = (.ok (), s.withNodes ((s.nodes.eraseIdx position).insertIdx target entry)) := by
  rw [move, run_move, h]
  exact if_neg (Nat.not_le.mpr htarget)

variable {α : Type}

theorem edit_of_none (h : s.locate? id = none) (change : SequenceNode H → α × SequenceNode H) :
    s.edit id change = (none, .unchanged s) := by
  rw [edit, run_edit, h]
  rfl

theorem edit_of_some (h : s.locate? id = some (position, entry))
    (change : SequenceNode H → α × SequenceNode H) :
    s.edit id change = (some (change entry.node).1,
      s.withNodes (s.nodes.set position { entry with node := (change entry.node).2 })) := by
  rw [edit, run_edit, h]
  rfl

theorem rename_of_none (h : s.locate? id = none) (name : String) :
    s.rename id name = (false, .unchanged s) := by
  rw [rename, run_rename, h]
  rfl

theorem rename_of_some (h : s.locate? id = some (position, entry)) (name : String) :
    s.rename id name
      = (true, .unchanged { s with nodes := s.nodes.set position { entry with name } }) := by
  rw [rename, run_rename, h]
  rfl

end Fit

/-! ### Histories -/

/-- The sequence after a history of calls. -/
def author (s : Sequence H) (edits : List (Edit H)) : Sequence H :=
  edits.foldl (fun s e => (e.apply s).sequence) s

/-- The sequence after a history of calls that have 32 bits for their sums, if no sum ends one. -/
def author32? (s : Sequence H) (edits : List (Edit H)) : Option (Sequence H) :=
  edits.foldlM Edit.apply32? s

/-- The sequence after a history of calls whose sums wrap around. -/
def authorWrapped (s : Sequence H) (edits : List (Edit H)) : Sequence H :=
  edits.foldl (fun s e => (e.wrapped s).2.sequence) s

/-- A history of which no call is ended comes to the same with all sums. -/
theorem author_of_checked {s s' : Sequence H} {edits : List (Edit H)}
    (h : s.author32? edits = some s') : s.author edits = s' ∧ s.authorWrapped edits = s' := by
  induction edits generalizing s with
  | nil => exact ⟨Option.some.inj h, Option.some.inj h⟩
  | cons e rest ih =>
      obtain ⟨s₁, he, hrest⟩ := Option.bind_eq_some_iff.mp h
      obtain ⟨hfits, hwraps⟩ := Edit.apply_of_checked he
      rw [author, authorWrapped, List.foldl_cons, List.foldl_cons, hfits, hwraps]
      exact ih hrest

@[simp] theorem id_author (s : Sequence H) (edits : List (Edit H)) :
    (s.author edits).id = s.id := by
  induction edits generalizing s with
  | nil => rfl
  | cons e rest ih => exact (ih _).trans (e.id_apply s)

end Sequence

end Sequencer
