import Sequencer.Override.Registry

/-!
# Sequencer.Proofs.Registry.Counting

What registries come to when all sums fit, and that 32 bits come to the same then.

* `Registry.nextIndex`, `Pass.register`, `Registry.reconcile`: a reconciliation with sums that
  always fit. What is proved about registries is about these;
* `Agrees`: a program that may be ended by a sum comes to the same as one that goes on in any case,
  unless it is ended. It is enough that the two ways of counting agree (`Counting.Exact`);
* `Registry.agrees_reconcileM`: so a checked reconciliation, if there is anything left of it, is the
  unbounded one, and the one whose sums wrap around.
-/

namespace Sequencer

/-! ### Sums that always fit -/

namespace Registry

/-- One past the highest index, or zero. -/
def nextIndex (r : Registry) : Nat := Id.run (r.nextIndexM .unbounded)

namespace Pass

/-- The pass before its first declaration. -/
def start (r : Registry) : Pass := Id.run (startM .unbounded r)

/-- Gives the field a fresh index. -/
def addFresh (p : Pass) (c : Claim) : Pass := Id.run (p.addFreshM .unbounded c)

/-- Takes up one declared field. -/
def register (p : Pass) (c : Claim) : Pass := Id.run (p.registerM .unbounded c)

theorem start_eq (r : Registry) :
    start r = { candidates := r.map (⟨·, false⟩), next := nextIndex r } := rfl

theorem addFresh_eq (p : Pass) (c : Claim) :
    p.addFresh c = { p with
      candidates := p.candidates ++ [⟨.ofDeclaration ⟨p.next⟩ c.node c.declaration, true⟩]
      next := p.next + 1
      indices := p.indices ++ [⟨p.next⟩] } := rfl

theorem register_eq (p : Pass) (c : Claim) :
    p.register c =
      match c.declaration.key? with
      | none => p.addFresh c
      | some key =>
        match p.candidates.findIdx? (·.entry.key == key) with
        | none => p.addFresh c
        | some position =>
          if (p.candidates[position]?.map (·.claimed)).getD true then
            { p.addFresh c with duplicates := p.duplicates ++ [key] }
          else p.claim position key.index c := by
  unfold register registerM
  rcases c.declaration.key? with _ | key
  · rfl
  cases hfind : p.candidates.findIdx? (·.entry.key == key) with
  | none =>
      simp only [hfind]
      rfl
  | some position =>
      simp only [hfind, apply_ite Id.run]
      rfl

end Pass

/-- Reconciles a registry with the declared fields. -/
def reconcile (r : Registry) (claims : List Claim) : Reconciled :=
  Id.run (r.reconcileM .unbounded claims)

theorem nextIndex_eq (r : Registry) :
    nextIndex r = r.foldl (fun n d => max n (d.index.number + 1)) 0 := by
  rw [nextIndex, nextIndexM, List.idRun_foldlM]
  rfl

theorem reconcile_eq (r : Registry) (claims : List Claim) :
    r.reconcile claims = (claims.foldl Pass.register (.start r)).outcome r := by
  rw [reconcile, reconcileM, Id.run_bind, Id.run_bind, List.idRun_foldlM]
  rfl

end Registry

/-! ### Sums that fit -/

/-- `y` comes to what `x` comes to, unless that is ended. -/
def Agrees {α : Type} (x : Option α) (y : Id α) : Prop := ∀ a, x = some a → Id.run y = a

namespace Agrees

variable {α β : Type}

theorem pure (a : α) : Agrees (Pure.pure a) (Pure.pure a) := fun _ h => Option.some.inj h

theorem bind {x : Option α} {y : Id α} {f : α → Option β} {g : α → Id β} (h : Agrees x y)
    (hf : ∀ a, Agrees (f a) (g a)) : Agrees (x >>= f) (y >>= g) := by
  intro b hb
  obtain ⟨a, ha, hb⟩ := Option.bind_eq_some_iff.mp hb
  rw [Id.run_bind, h a ha]
  exact hf a b hb

theorem foldlM {f : β → α → Option β} {g : β → α → Id β} (h : ∀ b a, Agrees (f b a) (g b a))
    (l : List α) (b : β) : Agrees (l.foldlM f b) (l.foldlM g b) := by
  induction l generalizing b with
  | nil => exact .pure b
  | cons a rest ih => exact (h b a).bind fun b' => ih b'

end Agrees

/-- A way of counting that goes on in any case, and by one while there is a next number of 32
bits. -/
def Counting.Exact (counting : Counting Id) : Prop :=
  ∀ n, Agrees (checked.succ n) (counting.succ n)

theorem Counting.exact_unbounded : unbounded.Exact := by
  intro n k h
  obtain ⟨-, h⟩ := Option.ite_none_right_eq_some.mp h
  exact Option.some.inj h

theorem Counting.exact_wrapping : wrapping.Exact := by
  intro n k h
  obtain ⟨hlt, h⟩ := Option.ite_none_right_eq_some.mp h
  exact (Nat.mod_eq_of_lt hlt).trans (Option.some.inj h)

namespace Registry

variable {counting : Counting Id}

theorem agrees_nextIndexM (h : counting.Exact) (r : Registry) :
    Agrees (r.nextIndexM .checked) (r.nextIndexM counting) := by
  refine .foldlM (fun n d => ?_) r 0
  exact (h d.index.number).bind fun _ => .pure _

theorem agrees_addFreshM (h : counting.Exact) (p : Pass) (c : Claim) :
    Agrees (p.addFreshM .checked c) (p.addFreshM counting c) :=
  (h p.next).bind fun _ => .pure _

theorem agrees_registerM (h : counting.Exact) (p : Pass) (c : Claim) :
    Agrees (p.registerM .checked c) (p.registerM counting c) := by
  unfold Pass.registerM
  split
  · exact agrees_addFreshM h p c
  split
  · exact agrees_addFreshM h p c
  split
  · exact (agrees_addFreshM h p c).bind fun _ => .pure _
  · exact .pure _

/-- **Reconciliations agree.** What a checked one comes to, every one comes to whose counting is
exact. -/
theorem agrees_reconcileM (h : counting.Exact) (r : Registry) (claims : List Claim) :
    Agrees (r.reconcileM .checked claims) (r.reconcileM counting claims) := by
  have hstart : Agrees (Pass.startM .checked r) (Pass.startM counting r) :=
    (agrees_nextIndexM h r).bind fun _ => .pure _
  exact hstart.bind fun p =>
    Agrees.bind (.foldlM (agrees_registerM h) claims p) fun _ => .pure _

end Registry

end Sequencer
