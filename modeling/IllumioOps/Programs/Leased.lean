import Mathlib.Data.List.Basic
import Mathlib.Logic.Function.Basic

/-!
# Resources that are leased and retired

A resource counts its leases. It is retired when another takes its place or it is of no more use, and is closed once:
when it is retired and the last lease of it is given back. At most one resource is current, the others are retired.

`LeaseTable.Ok` relates the counts to the leases that the users of the resources hold; each operation keeps it, given what
the operation does to those leases. What follows is that a resource is closed at most once (`LeaseTable.Ok.closes_le`),
never while it is leased (`LeaseTable.Ok.open_of_leased`), and is closed unless it is current or leased
(`LeaseTable.Ok.current_or_leased`).
-/

set_option autoImplicit false

namespace IllumioOps.Programs

variable {α : Type}

/-- A resource, and how often it was closed. -/
structure Leasable (α : Type) where
  value : α
  refs : Nat
  retired : Bool
  closes : Nat

namespace Leasable

/-- One lease more. -/
def lease (x : Leasable α) : Leasable α := { x with refs := x.refs + 1 }

/-- It is closed where nobody has a lease of it. -/
def closeIfFree (x : Leasable α) : Leasable α := if x.refs = 0 then { x with closes := x.closes + 1 } else x

def retire (x : Leasable α) : Leasable α := closeIfFree { x with retired := true }

/-- A lease is given back. -/
def release (x : Leasable α) : Leasable α :=
  let y := { x with refs := x.refs - 1 }
  if y.retired then y.closeIfFree else y

@[simp] theorem value_retire (x : Leasable α) : x.retire.value = x.value := by
  simp only [retire, closeIfFree]
  split <;> rfl

@[simp] theorem value_release (x : Leasable α) : x.release.value = x.value := by
  simp only [release, closeIfFree]
  split
  · split <;> rfl
  · rfl

@[simp] theorem refs_retire (x : Leasable α) : x.retire.refs = x.refs := by
  simp only [retire, closeIfFree]
  split <;> rfl

@[simp] theorem refs_release (x : Leasable α) : x.release.refs = x.refs - 1 := by
  simp only [release, closeIfFree]
  split
  · split <;> rfl
  · rfl

@[simp] theorem retired_retire (x : Leasable α) : x.retire.retired = true := by
  simp only [retire, closeIfFree]
  split <;> rfl

@[simp] theorem retired_release (x : Leasable α) : x.release.retired = x.retired := by
  simp only [release, closeIfFree]
  split
  · split <;> rfl
  · rfl

/-- Closed once, when it is retired and nobody has a lease of it. -/
def ClosedOnce (x : Leasable α) : Prop := x.closes = if x.retired = true ∧ x.refs = 0 then 1 else 0

theorem ClosedOnce.retire {x : Leasable α} (h : x.ClosedOnce) (hopen : x.retired = false) : x.retire.ClosedOnce := by
  have hnone : x.closes = 0 := by simpa [ClosedOnce, hopen] using h
  by_cases hfree : x.refs = 0 <;> simp [ClosedOnce, Leasable.retire, closeIfFree, hfree, hnone]

theorem ClosedOnce.release {x : Leasable α} (h : x.ClosedOnce) (hleased : x.refs ≠ 0) : x.release.ClosedOnce := by
  have hnone : x.closes = 0 := by simpa [ClosedOnce, hleased] using h
  cases hretired : x.retired with
  | false => simp [ClosedOnce, Leasable.release, hretired, hnone]
  | true => by_cases hfree : x.refs - 1 = 0 <;> simp [ClosedOnce, Leasable.release, closeIfFree, hretired, hfree, hnone]

theorem ClosedOnce.lease {x : Leasable α} (h : x.ClosedOnce) (hopen : x.retired = false) : x.lease.ClosedOnce := by
  simpa [ClosedOnce, Leasable.lease, hopen] using h

end Leasable

/-- The resources there ever were, and which of them is current. -/
structure LeaseTable (α : Type) where
  items : List (Leasable α)
  current : Option Nat

namespace LeaseTable

def empty : LeaseTable α := ⟨[], none⟩

def edit (t : LeaseTable α) (i : Nat) (f : Leasable α → Leasable α) : LeaseTable α := { t with items := t.items.modify i f }

def lease (t : LeaseTable α) (i : Nat) : LeaseTable α := t.edit i Leasable.lease

def release (t : LeaseTable α) (i : Nat) : LeaseTable α := t.edit i Leasable.release

/-- A retired resource is not current any more. -/
def retire (t : LeaseTable α) (i : Nat) : LeaseTable α :=
  { t.edit i Leasable.retire with current := if t.current = some i then none else t.current }

/-- A resource with one lease becomes current. -/
def publish (t : LeaseTable α) (a : α) : LeaseTable α :=
  { items := t.items ++ [⟨a, 1, false, 0⟩], current := some t.items.length }

theorem getElem?_edit (t : LeaseTable α) (i j : Nat) (f : Leasable α → Leasable α) :
    (t.edit i f).items[j]? = if i = j then t.items[j]?.map f else t.items[j]? := by
  rw [edit, List.getElem?_modify, Option.map_eq_map]
  split
  · rfl
  · simp

/-- The resources themselves. -/
def values (t : LeaseTable α) : List α := t.items.map Leasable.value

theorem values_edit (t : LeaseTable α) (i : Nat) {f : Leasable α → Leasable α} (h : ∀ x, (f x).value = x.value) :
    (t.edit i f).values = t.values := by
  refine List.ext_getElem? fun j => ?_
  rw [values, values, List.getElem?_map, List.getElem?_map, getElem?_edit]
  split
  · rw [Option.map_map]
    exact congrArg (fun g => t.items[j]?.map g) (funext h)
  · rfl

@[simp] theorem values_lease (t : LeaseTable α) (i : Nat) : (t.lease i).values = t.values := values_edit t i fun _ => rfl

@[simp] theorem values_release (t : LeaseTable α) (i : Nat) : (t.release i).values = t.values :=
  values_edit t i Leasable.value_release

@[simp] theorem values_retire (t : LeaseTable α) (i : Nat) : (t.retire i).values = t.values :=
  values_edit t i Leasable.value_retire

@[simp] theorem values_publish (t : LeaseTable α) (a : α) : (t.publish a).values = t.values ++ [a] := by
  simp [values, publish]

/-- The counts are those of the leases that are held, what is not retired is current, and everything else is closed
once nobody has a lease of it. -/
structure Ok (t : LeaseTable α) (leases : Nat → Nat) : Prop where
  refs : ∀ i x, t.items[i]? = some x → x.refs = leases i
  current : ∀ i, t.current = some i → ∃ x, t.items[i]? = some x ∧ x.retired = false
  retired : ∀ i x, t.items[i]? = some x → x.retired = false → t.current = some i
  closes : ∀ (i : Nat) (x : Leasable α), t.items[i]? = some x → x.ClosedOnce
  absent : ∀ i, t.items.length ≤ i → leases i = 0

variable {t : LeaseTable α} {leases : Nat → Nat} {i : Nat} {x : Leasable α}

theorem ok_empty : (empty : LeaseTable α).Ok fun _ => 0 where
  refs _ _ h := by cases h
  current _ h := by cases h
  retired _ _ h := by cases h
  closes _ _ h := by cases h
  absent _ _ := rfl

/-- An edit of one resource that keeps what it has to. -/
theorem Ok.edit (h : t.Ok leases) (hx : t.items[i]? = some x) (f : Leasable α → Leasable α) {n : Nat}
    {current : Option Nat} (hrefs : (f x).refs = n) (hcloses : (f x).ClosedOnce)
    (hcurrent : ∀ j, current = some j ↔ if j = i then (f x).retired = false else t.current = some j) :
    Ok { t.edit i f with current := current } (Function.update leases i n) where
  refs j y hy := by
    change (t.edit i f).items[j]? = some y at hy
    rw [getElem?_edit] at hy
    by_cases hij : i = j
    · subst hij
      rw [if_pos rfl, hx] at hy
      obtain rfl := Option.some.inj hy
      rw [Function.update_self, hrefs]
    · rw [if_neg hij] at hy
      rw [Function.update_of_ne (Ne.symm hij), h.refs j y hy]
  current j hj := by
    change ∃ y, (t.edit i f).items[j]? = some y ∧ y.retired = false
    rw [getElem?_edit]
    have hwhich := (hcurrent j).1 hj
    by_cases hij : i = j
    · subst hij
      rw [if_pos rfl] at hwhich
      rw [if_pos rfl, hx]
      exact ⟨_, rfl, hwhich⟩
    · rw [if_neg (Ne.symm hij)] at hwhich
      rw [if_neg hij]
      exact h.current j hwhich
  retired j y hy hopen := by
    change (t.edit i f).items[j]? = some y at hy
    rw [getElem?_edit] at hy
    refine (hcurrent j).2 ?_
    by_cases hij : i = j
    · subst hij
      rw [if_pos rfl, hx] at hy
      obtain rfl := Option.some.inj hy
      rw [if_pos rfl]
      exact hopen
    · rw [if_neg hij] at hy
      rw [if_neg (Ne.symm hij)]
      exact h.retired j y hy hopen
  closes j y hy := by
    change (t.edit i f).items[j]? = some y at hy
    rw [getElem?_edit] at hy
    by_cases hij : i = j
    · subst hij
      rw [if_pos rfl, hx] at hy
      obtain rfl := Option.some.inj hy
      exact hcloses
    · rw [if_neg hij] at hy
      exact h.closes j y hy
  absent j hj := by
    have hlength : t.items.length ≤ j := by simpa [LeaseTable.edit] using hj
    have hne : j ≠ i := by
      rintro rfl
      rw [List.getElem?_eq_none hlength] at hx
      cases hx
    rw [Function.update_of_ne hne]
    exact h.absent j hlength

/-- The current resource is leased. -/
theorem Ok.lease (h : t.Ok leases) (hcurrent : t.current = some i) :
    (t.lease i).Ok (Function.update leases i (leases i + 1)) := by
  obtain ⟨x, hx, hopen⟩ := h.current i hcurrent
  refine h.edit hx Leasable.lease (congrArg (· + 1) (h.refs i x hx)) ((h.closes i x hx).lease hopen) fun j => ?_
  by_cases hj : j = i
  · subst hj
    rw [if_pos rfl]
    exact iff_of_true hcurrent hopen
  · rw [if_neg hj]

/-- A resource that is not retired yet is. -/
theorem Ok.retire (h : t.Ok leases) (hx : t.items[i]? = some x) (hopen : x.retired = false) :
    (t.retire i).Ok leases := by
  have hcurrent := h.retired i x hx hopen
  have hedit : Ok { t.edit i Leasable.retire with current := none } (Function.update leases i (leases i)) :=
    h.edit hx Leasable.retire (by simp [h.refs i x hx]) ((h.closes i x hx).retire hopen) (fun j => ?_)
  · rw [Function.update_eq_self] at hedit
    rw [LeaseTable.retire, if_pos hcurrent]
    exact hedit
  · by_cases hj : j = i
    · simp [hj]
    · rw [if_neg hj, hcurrent]
      simp [Ne.symm hj]

/-- A lease is given back. -/
theorem Ok.release (h : t.Ok leases) (hleased : leases i ≠ 0) :
    (t.release i).Ok (Function.update leases i (leases i - 1)) := by
  have hlt : i < t.items.length := by
    by_contra hge
    exact hleased (h.absent i (Nat.le_of_not_lt hge))
  obtain ⟨x, hx⟩ : ∃ x, t.items[i]? = some x := ⟨_, List.getElem?_eq_getElem hlt⟩
  have hrefs := h.refs i x hx
  refine h.edit hx Leasable.release (by simp [hrefs]) ((h.closes i x hx).release (by rwa [hrefs])) fun j => ?_
  by_cases hj : j = i
  · subst hj
    rw [if_pos rfl, Leasable.retired_release]
    constructor
    · intro hcurrent
      obtain ⟨y, hy, hopen⟩ := h.current j hcurrent
      obtain rfl := Option.some.inj (hx.symm.trans hy)
      exact hopen
    · exact h.retired j x hx
  · rw [if_neg hj]

theorem getElem?_publish {a : α} {j : Nat} {y : Leasable α} : (t.publish a).items[j]? = some y ↔
    t.items[j]? = some y ∨ j = t.items.length ∧ y = ⟨a, 1, false, 0⟩ := by
  simp only [LeaseTable.publish]
  rcases Nat.lt_trichotomy j t.items.length with hlt | rfl | hgt
  · rw [List.getElem?_append_left hlt]
    simp [Nat.ne_of_lt hlt]
  · simp [eq_comm]
  · rw [List.getElem?_eq_none (Nat.le_of_lt hgt), List.getElem?_eq_none (by simpa using Nat.succ_le_of_lt hgt)]
    simp [Nat.ne_of_gt hgt]

/-- A resource takes its place where there is none. -/
theorem Ok.publish (h : t.Ok leases) (hnone : t.current = none) (a : α) :
    (t.publish a).Ok (Function.update leases t.items.length 1) where
  refs j y hy := by
    rcases getElem?_publish.1 hy with hy | ⟨rfl, rfl⟩
    · have hlt := (List.getElem?_eq_some_iff.1 hy).1
      rw [Function.update_of_ne (Nat.ne_of_lt hlt), h.refs j y hy]
    · rw [Function.update_self]
  current j hj := by
    obtain rfl := Option.some.inj hj
    exact ⟨_, getElem?_publish.2 (Or.inr ⟨rfl, rfl⟩), rfl⟩
  retired j y hy hopen := by
    rcases getElem?_publish.1 hy with hy | ⟨rfl, rfl⟩
    · have hcurrent := h.retired j y hy hopen
      rw [hnone] at hcurrent
      cases hcurrent
    · rfl
  closes j y hy := by
    rcases getElem?_publish.1 hy with hy | ⟨rfl, rfl⟩
    · exact h.closes j y hy
    · rfl
  absent j hj := by
    have hlt : t.items.length < j := Nat.lt_of_succ_le (by simpa [LeaseTable.publish] using hj)
    rw [Function.update_of_ne (Nat.ne_of_gt hlt)]
    exact h.absent j (Nat.le_of_lt hlt)

/-! ## What follows -/

theorem Ok.closes_le (h : t.Ok leases) (hx : x ∈ t.items) : x.closes ≤ 1 := by
  obtain ⟨j, hj⟩ := List.mem_iff_getElem?.1 hx
  rw [h.closes j x hj]
  split <;> decide

/-- What is leased is there and open. -/
theorem Ok.open_of_leased (h : t.Ok leases) (hleased : leases i ≠ 0) :
    ∃ x, t.items[i]? = some x ∧ x.closes = 0 := by
  have hlt : i < t.items.length := by
    by_contra hge
    exact hleased (h.absent i (Nat.le_of_not_lt hge))
  have hx := List.getElem?_eq_getElem hlt
  refine ⟨_, hx, ?_⟩
  rw [h.closes i _ hx, if_neg]
  rintro ⟨-, hfree⟩
  exact hleased ((h.refs i _ hx).symm.trans hfree)

/-- What is open is current or leased. -/
theorem Ok.current_or_leased (h : t.Ok leases) (hx : t.items[i]? = some x) (hopen : x.closes = 0) :
    t.current = some i ∨ leases i ≠ 0 := by
  cases hretired : x.retired with
  | false => exact Or.inl (h.retired i x hx hretired)
  | true =>
    refine Or.inr fun hnone => ?_
    have hcloses := h.closes i x hx
    rw [Leasable.ClosedOnce, if_pos ⟨hretired, (h.refs i x hx).trans hnone⟩, hopen] at hcloses
    cases hcloses

end LeaseTable

end IllumioOps.Programs
