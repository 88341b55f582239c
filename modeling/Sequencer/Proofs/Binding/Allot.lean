import Mathlib.Data.List.Forall2
import Mathlib.Data.List.Nodup
import Mathlib.Data.List.Perm.Basic
import Mathlib.Data.List.ReduceOption
import Sequencer.Binding.Reconcile

/-!
# Sequencer.Proofs.Binding.Allot

Taking elements out of a list by their keys, one key after the other. Each time the last element
takes the place of the one that was taken, so nothing is said of the order of what is left.

* `takeOut?_eq_some`: what is taken is the first that fits, and nothing else is lost;
* `allot`: the elements for a list of keys, and what is left (`perm_allot`);
* `allot_complete_iff`: each key finds an element and nothing is left over exactly if the elements
  have these keys, in any order.
-/

namespace Sequencer

/-! ### Lists in step -/

section Zip

variable {α β γ : Type} {R : α → β → Prop} {xs : List α} {ys : List β}

theorem forall₂_zipWith {S : α → γ → Prop} {f : α → β → γ} (h : List.Forall₂ R xs ys)
    (hf : ∀ x ∈ xs, ∀ y, R x y → S x (f x y)) : List.Forall₂ S xs (List.zipWith f xs ys) := by
  induction h with
  | nil => exact .nil
  | cons hxy _ ih =>
      exact .cons (hf _ List.mem_cons_self _ hxy) (ih fun x hx => hf x (List.mem_cons_of_mem _ hx))

theorem forall₂_zipWith_map_some {S : β → γ → Prop} {f : α → Option β → γ}
    (h : List.Forall₂ R xs ys) (hf : ∀ x y, R x y → S y (f x (some y))) :
    List.Forall₂ S ys (List.zipWith f xs (ys.map some)) := by
  induction h with
  | nil => exact .nil
  | cons hxy _ ih => exact .cons (hf _ _ hxy) ih

theorem zipWith_map_some {f : α → Option β → β} (h : List.Forall₂ R xs ys)
    (hf : ∀ x ∈ xs, ∀ y, R x y → f x (some y) = y) : List.zipWith f xs (ys.map some) = ys := by
  induction h with
  | nil => rfl
  | cons hxy _ ih =>
      rw [List.map_cons, List.zipWith_cons_cons, hf _ List.mem_cons_self _ hxy,
        ih fun x hx => hf x (List.mem_cons_of_mem _ hx)]

theorem map_eq_map_iff_forall₂ {κ : Type} {f : α → κ} {g : β → κ} :
    ys.map g = xs.map f ↔ List.Forall₂ (fun x y => g y = f x) xs ys := by
  rw [eq_comm, ← List.forall₂_eq_eq_eq, List.forall₂_map_left_iff, List.forall₂_map_right_iff]
  constructor
  · exact fun h => h.imp fun _ _ => Eq.symm
  · exact fun h => h.imp fun _ _ => Eq.symm

theorem forall₂_and {S : α → β → Prop} (h : List.Forall₂ R xs ys) (h' : List.Forall₂ S xs ys) :
    List.Forall₂ (fun x y => R x y ∧ S x y) xs ys := by
  induction h with
  | nil => exact .nil
  | cons hxy _ ih =>
      obtain ⟨hxy', hrest⟩ := List.forall₂_cons.mp h'
      exact .cons ⟨hxy, hxy'⟩ (ih hrest)

theorem forall₂_of_mem {S : α → β → Prop} (h : List.Forall₂ R xs ys)
    (hS : ∀ x ∈ xs, ∀ y ∈ ys, R x y → S x y) : List.Forall₂ S xs ys := by
  induction h with
  | nil => exact .nil
  | cons hxy _ ih =>
      refine .cons (hS _ List.mem_cons_self _ List.mem_cons_self hxy) (ih fun x hx y hy => ?_)
      exact hS x (List.mem_cons_of_mem _ hx) y (List.mem_cons_of_mem _ hy)

theorem exists_of_forall₂ {y : β} (h : List.Forall₂ R xs ys) (hy : y ∈ ys) : ∃ x ∈ xs, R x y := by
  induction h with
  | nil => cases hy
  | cons hxy _ ih =>
      rcases List.mem_cons.mp hy with rfl | hy
      · exact ⟨_, List.mem_cons_self, hxy⟩
      · obtain ⟨x, hx, hxy⟩ := ih hy
        exact ⟨x, List.mem_cons_of_mem _ hx, hxy⟩

/-- What stands beside an element is the one thing that has the element's key. -/
theorem filter_of_forall₂ {κ : Type} [DecidableEq κ] {f : α → κ} {g : β → κ}
    (h : List.Forall₂ R xs ys) (hkey : ∀ x y, R x y → g y = f x) (hxs : (xs.map f).Nodup) {x : α}
    (hx : x ∈ xs) : ∃ y, R x y ∧ ys.filter (g · == f x) = [y] := by
  induction h with
  | nil => cases hx
  | @cons x' y' xs ys hxy hrest ih =>
      rw [List.map_cons, List.nodup_cons] at hxs
      rcases List.mem_cons.mp hx with rfl | hx
      · have hnone : ys.filter (g · == f x) = [] := by
          rw [List.filter_eq_nil_iff]
          intro y hy heq
          obtain ⟨x', hx', hxy'⟩ := exists_of_forall₂ hrest hy
          have hsame : f x' = f x := (hkey x' y hxy').symm.trans (beq_iff_eq.mp heq)
          exact hxs.1 (hsame ▸ List.mem_map_of_mem hx')
        exact ⟨y', hxy, by rw [List.filter_cons_of_pos (by simpa using hkey _ _ hxy), hnone]⟩
      · obtain ⟨y, hRy, hfilter⟩ := ih hxs.2 hx
        have hne : g y' ≠ f x := fun heq =>
          hxs.1 ((hkey _ _ hxy) ▸ heq ▸ List.mem_map_of_mem hx)
        exact ⟨y, hRy, by rw [List.filter_cons_of_neg (by simpa using hne), hfilter]⟩

end Zip

variable {α κ : Type}

/-! ### One element -/

theorem takeOut?_eq_none {p : α → Bool} {xs : List α} :
    takeOut? p xs = none ↔ ∀ x ∈ xs, p x = false := by
  rw [← List.findIdx?_eq_none_iff]
  constructor
  · intro h
    by_contra hsome
    obtain ⟨i, hi⟩ := Option.ne_none_iff_exists'.mp hsome
    obtain ⟨hlt, -, -⟩ := List.findIdx?_eq_some_iff_getElem.mp hi
    have hne : xs ≠ [] := List.ne_nil_of_length_pos (Nat.zero_lt_of_lt hlt)
    simp [takeOut?, hi, hlt, List.getLast?_eq_some_getLast hne] at h
  · intro h
    simp [takeOut?, h]

/-- The last element in the place of another one, and the other one in front. -/
theorem perm_set_dropLast {xs : List α} {i : Nat} {last : α} (hi : i < xs.length)
    (hlast : xs.getLast? = some last) : (xs[i] :: (xs.set i last).dropLast).Perm xs := by
  have hset : ∃ front, xs.set i last = front ++ [last] := by
    obtain ⟨front, rfl⟩ := List.getLast?_eq_some_iff.mp hlast
    rw [List.set_append]
    split
    · exact ⟨_, rfl⟩
    · have hzero : i - front.length = 0 := by
        simp only [List.length_append, List.length_singleton] at hi
        omega
      exact ⟨front, by rw [hzero]; rfl⟩
  obtain ⟨front, hfront⟩ := hset
  have hrest : front.Perm (xs.eraseIdx i) := by
    have hboth := List.set_perm_cons_eraseIdx hi last
    rw [hfront] at hboth
    exact ((List.perm_append_singleton last front).symm.trans hboth).cons_inv
  rw [hfront, List.dropLast_concat]
  exact (hrest.cons _).trans (List.getElem_cons_eraseIdx_perm hi)

theorem takeOut?_eq_some {p : α → Bool} {xs rest : List α} {x : α}
    (h : takeOut? p xs = some (x, rest)) : xs.find? p = some x ∧ (x :: rest).Perm xs := by
  obtain ⟨i, hi, h⟩ := Option.bind_eq_some_iff.mp h
  obtain ⟨y, hy, h⟩ := Option.bind_eq_some_iff.mp h
  obtain ⟨last, hlast, h⟩ := Option.bind_eq_some_iff.mp h
  cases h
  obtain ⟨hlt, rfl⟩ := List.getElem?_eq_some_iff.mp hy
  exact ⟨by rw [List.find?_eq_bind_findIdx?_getElem?, hi]; exact hy, perm_set_dropLast hlt hlast⟩

/-! ### One element for each key -/

/-- What a list has for a key: an element with this key, or nothing if no element has it. -/
inductive Answers (key : α → κ) (xs : List α) (k : κ) : Option α → Prop
  | found {x : α} : x ∈ xs → key x = k → Answers key xs k (some x)
  | missing : (∀ x ∈ xs, key x ≠ k) → Answers key xs k none

theorem Answers.key_eq {key : α → κ} {xs : List α} {k : κ} {found : Option α}
    (h : Answers key xs k found) : ∀ x, found = some x → key x = k := by
  rintro x rfl
  cases h with
  | found _ hkey => exact hkey

/-- There is one answer if no two elements share the key. -/
theorem Answers.unique {key : α → κ} {xs : List α} {k : κ}
    (h : ∀ x ∈ xs, ∀ y ∈ xs, key x = k → key y = k → x = y)
    {found found' : Option α} (hfound : Answers key xs k found)
    (hfound' : Answers key xs k found') : found = found' := by
  cases hfound with
  | missing hnone =>
      cases hfound' with
      | missing _ => rfl
      | found hx hkey => exact absurd hkey (hnone _ hx)
  | found hx hkey =>
      cases hfound' with
      | missing hnone => exact absurd hkey (hnone _ hx)
      | found hy hkey' => rw [h _ hx _ hy hkey hkey']

section Keys

variable [DecidableEq κ] (key : α → κ)

/-- The first element with a key, if there is one, and the other elements. -/
def takeKey (k : κ) (xs : List α) : Option α × List α :=
  match takeOut? (key · == k) xs with
  | none => (none, xs)
  | some (x, rest) => (some x, rest)

/-- The elements that are taken out of a list for one key after the other, and what is left. -/
def allot : List κ → List α → List (Option α) × List α
  | [], xs => ([], xs)
  | k :: ks, xs =>
    let (found, rest) := takeKey key k xs
    let (others, left) := allot ks rest
    (found :: others, left)

variable {key} {k : κ} {ks : List κ} {xs : List α}

theorem allot_cons (key : α → κ) (k : κ) (ks : List κ) (xs : List α) :
    allot key (k :: ks) xs = ((takeKey key k xs).1 :: (allot key ks (takeKey key k xs).2).1,
      (allot key ks (takeKey key k xs).2).2) := rfl

theorem takeKey_cases (key : α → κ) (k : κ) (xs : List α) :
    (takeKey key k xs = (none, xs) ∧ ∀ x ∈ xs, key x ≠ k) ∨
    ∃ x rest, takeKey key k xs = (some x, rest) ∧ key x = k ∧ (x :: rest).Perm xs := by
  unfold takeKey
  cases htake : takeOut? (key · == k) xs with
  | none => exact .inl ⟨rfl, fun x hx => by simpa using takeOut?_eq_none.mp htake x hx⟩
  | some taken =>
      obtain ⟨hfind, hperm⟩ := takeOut?_eq_some htake
      exact .inr ⟨taken.1, taken.2, rfl, by simpa using List.find?_some hfind, hperm⟩

/-- Nothing is lost. -/
theorem perm_allot (key : α → κ) (ks : List κ) (xs : List α) :
    ((allot key ks xs).1.reduceOption ++ (allot key ks xs).2).Perm xs := by
  induction ks generalizing xs with
  | nil => exact .refl _
  | cons k ks ih =>
      rw [allot_cons]
      obtain ⟨htake, -⟩ | ⟨x, rest, htake, -, hperm⟩ := takeKey_cases key k xs
      · rw [htake, List.reduceOption_cons_of_none]
        exact ih xs
      · rw [htake, List.reduceOption_cons_of_some]
        exact ((ih rest).cons x).trans hperm

theorem mem_of_mem_allot {x : α} (h : some x ∈ (allot key ks xs).1) : x ∈ xs :=
  (perm_allot key ks xs).subset
    (List.mem_append_left _ (List.reduceOption_mem_iff.mpr h))

/-- What is taken for a key has it. -/
theorem key_allot (key : α → κ) (ks : List κ) (xs : List α) :
    List.Forall₂ (fun k found => ∀ x, found = some x → key x = k) ks (allot key ks xs).1 := by
  induction ks generalizing xs with
  | nil => exact .nil
  | cons k ks ih =>
      rw [allot_cons]
      refine .cons (fun x hx => ?_) (ih _)
      obtain ⟨htake, -⟩ | ⟨y, rest, htake, hkey, -⟩ := takeKey_cases key k xs
      · rw [htake] at hx
        cases hx
      · rw [htake] at hx
        cases hx
        exact hkey

theorem answers_find? (key : α → κ) (xs : List α) (k : κ) :
    Answers key xs k (xs.find? (key · == k)) := by
  cases hfind : xs.find? (key · == k) with
  | none => exact .missing fun x hx => by simpa using List.find?_eq_none.mp hfind x hx
  | some x => exact .found (List.mem_of_find?_eq_some hfind) (by simpa using List.find?_some hfind)

/-- The one element with a key is what a list has for it. -/
theorem Answers.eq_some {x : α} {found : Option α} (h : Answers key xs k found)
    (hfilter : xs.filter (key · == k) = [x]) : found = some x := by
  have hmem : ∀ y ∈ xs, key y = k → y = x := by
    intro y hy hkey
    have hy' : y ∈ xs.filter (key · == k) := List.mem_filter.mpr ⟨hy, beq_iff_eq.mpr hkey⟩
    rw [hfilter] at hy'
    exact List.mem_singleton.mp hy'
  cases h with
  | found hy hkey => rw [hmem _ hy hkey]
  | missing hnone =>
      have hx : x ∈ xs.filter (key · == k) := by simp [hfilter]
      obtain ⟨hx, hkey⟩ := List.mem_filter.mp hx
      exact absurd (beq_iff_eq.mp hkey) (hnone x hx)

/-- Each key is answered, unless it was wanted before. -/
theorem answers_allot (hks : ks.Nodup) :
    List.Forall₂ (Answers key xs) ks (allot key ks xs).1 := by
  induction ks generalizing xs with
  | nil => exact .nil
  | cons k ks ih =>
      obtain ⟨hk, hks⟩ := List.nodup_cons.mp hks
      rw [allot_cons]
      obtain ⟨htake, hnone⟩ | ⟨x, rest, htake, hkey, hperm⟩ := takeKey_cases key k xs
      · rw [htake]
        exact .cons (.missing hnone) (ih hks)
      · rw [htake]
        refine .cons (.found (hperm.subset List.mem_cons_self) hkey)
          (forall₂_of_mem (ih hks) fun k' hk' found _ hanswers => ?_)
        -- The other keys are not that of `x`, so that for them `rest` is as good as all.
        cases hanswers with
        | found hy hkey' => exact .found (hperm.subset (List.mem_cons_of_mem _ hy)) hkey'
        | missing hrest =>
            refine .missing fun y hy heq => ?_
            rcases List.mem_cons.mp (hperm.mem_iff.mpr hy) with rfl | hy
            · exact hk (hkey ▸ heq ▸ hk')
            · exact hrest y hy heq

/-- **Complete allotments.** -/
theorem allot_complete_iff :
    (none ∉ (allot key ks xs).1 ∧ (allot key ks xs).2 = []) ↔ (xs.map key).Perm ks := by
  induction ks generalizing xs with
  | nil => simp [allot]
  | cons k ks ih =>
      rw [allot_cons]
      obtain ⟨htake, hnone⟩ | ⟨x, rest, htake, hkey, hperm⟩ := takeKey_cases key k xs
      · rw [htake]
        refine ⟨fun h => absurd List.mem_cons_self h.1, fun h => ?_⟩
        obtain ⟨x, hx, hkey⟩ := List.mem_map.mp (h.mem_iff.mpr List.mem_cons_self)
        exact absurd hkey (hnone x hx)
      · have hkeys : (xs.map key).Perm (k :: rest.map key) := by
          simpa [hkey] using (hperm.map key).symm
        have hiff : (xs.map key).Perm (k :: ks) ↔ (rest.map key).Perm ks :=
          ⟨fun h => (hkeys.symm.trans h).cons_inv, fun h => hkeys.trans (h.cons k)⟩
        rw [htake, hiff, ← ih]
        simp

theorem map_some_reduceOption {xs : List (Option α)} (h : none ∉ xs) :
    xs.reduceOption.map some = xs := by
  induction xs with
  | nil => rfl
  | cons x? xs ih =>
      obtain ⟨hx, hxs⟩ := not_or.mp (mt List.mem_cons.mpr h)
      cases x? with
      | none => exact absurd rfl hx
      | some x => rw [List.reduceOption_cons_of_some, List.map_cons, ih hxs]

/-- Elements with the keys that are wanted are put in the order of the keys. -/
theorem allot_of_perm (h : (xs.map key).Perm ks) :
    ∃ ys : List α, allot key ks xs = (ys.map some, []) ∧ ys.Perm xs ∧ ys.map key = ks := by
  obtain ⟨hall, hleft⟩ := allot_complete_iff.mpr h
  have hfound := map_some_reduceOption hall
  refine ⟨(allot key ks xs).1.reduceOption, Prod.ext hfound.symm hleft, ?_, ?_⟩
  · simpa [hleft] using perm_allot key ks xs
  · have hkeys := key_allot key ks xs
    rw [← hfound, List.forall₂_map_right_iff] at hkeys
    have hsame : List.Forall₂ (fun k y => k = key y) ks (allot key ks xs).1.reduceOption :=
      hkeys.imp fun k y hy => (hy y rfl).symm
    rw [← List.forall₂_map_right_iff (R := Eq), List.forall₂_eq_eq_eq] at hsame
    exact hsame.symm

/-- Elements that are in line with the keys are left as they stand. -/
theorem allot_map_key (h : (xs.map key).Nodup) : allot key (xs.map key) xs = (xs.map some, []) := by
  obtain ⟨ys, heq, hperm, hkeys⟩ := allot_of_perm (.refl (xs.map key))
  have hlength : ys.length = xs.length := hperm.length_eq
  have hys : ys = xs := by
    refine List.ext_getElem hlength fun i hi hi' => ?_
    have hkey : (ys.map key)[i]? = (xs.map key)[i]? := by rw [hkeys]
    refine List.inj_on_of_nodup_map h (hperm.subset (List.getElem_mem hi)) (List.getElem_mem hi') ?_
    simpa [hi, hi'] using hkey
  rw [heq, hys]

end Keys

end Sequencer
