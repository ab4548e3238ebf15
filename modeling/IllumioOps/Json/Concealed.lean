import IllumioOps.Json.Value

/-!
# Values concealed by their place

A place says where in a document a value stands: an object is entered under a key, an array
through any of its items. A policy says which values are hidden at a key of an object at a place,
and `conceal` puts a mark in place of each. Two documents are `Alike` when they differ only in
values a policy hides. `conceal_eq_iff` is noninterference with its gap: where two documents differ
only in what one policy hides, another policy conceals the difference exactly when they agree on
the values it leaves in sight.
-/

set_option autoImplicit false

namespace IllumioOps.Json

/-- How a place is reached: under a key of an object, or as an item of an array. -/
structure Places (σ : Type) where
  enter : σ → String → σ
  item : σ → σ

/-- The values hidden under a key of an object at a place. -/
abbrev Policy (σ : Type) : Type := σ → String → Json → Bool

section Conceal

variable {σ : Type} (places : Places σ)

mutual

/-- Every hidden value replaced by the mark. -/
def conceal (hides : Policy σ) (mark : Json) (s : σ) : Json → Json
  | obj fields => obj (concealFields hides mark s fields)
  | arr items => arr (concealItems hides mark (places.item s) items)
  | j => j

def concealFields (hides : Policy σ) (mark : Json) (s : σ) :
    List (String × Json) → List (String × Json)
  | [] => []
  | (k, v) :: rest =>
      (k, if hides s k v then mark else conceal hides mark (places.enter s k) v) ::
        concealFields hides mark s rest

def concealItems (hides : Policy σ) (mark : Json) (s : σ) : List Json → List Json
  | [] => []
  | j :: rest => conceal hides mark s j :: concealItems hides mark s rest

end

mutual

/-- Of the values a policy hides, those that stay in sight, in the order they stand in. -/
def inSight (hides sight : Policy σ) (s : σ) : Json → List (Option Json)
  | obj fields => inSightFields hides sight s fields
  | arr items => inSightItems hides sight (places.item s) items
  | _ => []

def inSightFields (hides sight : Policy σ) (s : σ) : List (String × Json) → List (Option Json)
  | [] => []
  | (k, v) :: rest =>
      (if hides s k v then [if sight s k v then some v else none]
        else inSight hides sight (places.enter s k) v) ++ inSightFields hides sight s rest

def inSightItems (hides sight : Policy σ) (s : σ) : List Json → List (Option Json)
  | [] => []
  | j :: rest => inSight hides sight s j ++ inSightItems hides sight s rest

end

mutual

/-- Two values that differ only in what a policy hides. -/
inductive Alike (hides : Policy σ) : σ → Json → Json → Prop
  | same (s : σ) (j : Json) : Alike hides s j j
  | obj {s : σ} {fields fields' : List (String × Json)} :
      AlikeFields hides s fields fields' → Alike hides s (.obj fields) (.obj fields')
  | arr {s : σ} {items items' : List Json} :
      AlikeItems hides (places.item s) items items' → Alike hides s (.arr items) (.arr items')

inductive AlikeFields (hides : Policy σ) :
    σ → List (String × Json) → List (String × Json) → Prop
  | nil (s : σ) : AlikeFields hides s [] []
  | hidden {s : σ} {k : String} {v v' : Json} {rest rest' : List (String × Json)} :
      hides s k v = true → hides s k v' = true → AlikeFields hides s rest rest' →
        AlikeFields hides s ((k, v) :: rest) ((k, v') :: rest')
  | shown {s : σ} {k : String} {v v' : Json} {rest rest' : List (String × Json)} :
      hides s k v = false → hides s k v' = false → Alike hides (places.enter s k) v v' →
        AlikeFields hides s rest rest' → AlikeFields hides s ((k, v) :: rest) ((k, v') :: rest')

inductive AlikeItems (hides : Policy σ) : σ → List Json → List Json → Prop
  | nil (s : σ) : AlikeItems hides s [] []
  | cons {s : σ} {j j' : Json} {rest rest' : List Json} :
      Alike hides s j j' → AlikeItems hides s rest rest' →
        AlikeItems hides s (j :: rest) (j' :: rest')

end

end Conceal

/-! ## What is concealed -/

section Concealed

variable {σ : Type} {places : Places σ} {hides sight : Policy σ} {mark : Json} {s : σ}

theorem concealFields_eq (fields : List (String × Json)) :
    concealFields places hides mark s fields = fields.map fun f =>
      (f.1, if hides s f.1 f.2 then mark
        else conceal places hides mark (places.enter s f.1) f.2) := by
  induction fields with
  | nil => rfl
  | cons f rest ih => rw [concealFields, List.map_cons, ih]

theorem concealItems_eq (items : List Json) :
    concealItems places hides mark s items = items.map (conceal places hides mark s) := by
  induction items with
  | nil => rfl
  | cons j rest ih => rw [concealItems, List.map_cons, ih]

/-- Nothing is concealed in a part of the places where nothing is hidden and that is never left. -/
theorem conceal_eq_self (part : σ → Prop) (henter : ∀ s k, part s → part (places.enter s k))
    (hitem : ∀ s, part s → part (places.item s)) (hnone : ∀ s k v, part s → hides s k v = false)
    (hs : part s) (j : Json) : conceal places hides mark s j = j := by
  induction j using induction_members generalizing s with
  | arr items ih =>
      rw [conceal, concealItems_eq, List.map_congr_left fun j hj => ih j hj (hitem s hs),
        List.map_id']
  | obj fields ih =>
      have hfields : ∀ f ∈ fields, (f.1, if hides s f.1 f.2 then mark
          else conceal places hides mark (places.enter s f.1) f.2) = f := by
        intro f hf
        rw [hnone s _ _ hs, if_neg Bool.false_ne_true, ih f hf (henter s f.1 hs)]
      rw [conceal, concealFields_eq, List.map_congr_left hfields, List.map_id']
  | _ => rfl

/-- At a place that hides nothing and leads only to itself, values that are alike are the same. -/
theorem Alike.eq_of_plain (henter : ∀ k, places.enter s k = s) (hitem : places.item s = s)
    (hnone : ∀ k v, hides s k v = false) {a b : Json} (h : Alike places hides s a b) : a = b := by
  induction a using induction_members generalizing b with
  | arr items ih =>
      cases h with
      | same => rfl
      | arr hitems =>
          rename_i items'
          rw [hitem] at hitems
          congr 1
          induction items generalizing items' with
          | nil => cases hitems; rfl
          | cons j rest hrest =>
              cases hitems with
              | cons hj htail =>
                  rw [ih j List.mem_cons_self hj,
                    hrest (fun j hj => ih j (List.mem_cons_of_mem _ hj)) htail]
  | obj fields ih =>
      cases h with
      | same => rfl
      | obj hfields =>
          rename_i fields'
          congr 1
          induction fields generalizing fields' with
          | nil => cases hfields; rfl
          | cons f rest hrest =>
              cases hfields with
              | hidden hv => rw [hnone] at hv; exact absurd hv Bool.false_ne_true
              | shown _ _ hvalue htail =>
                  rw [henter] at hvalue
                  obtain rfl := ih _ List.mem_cons_self hvalue
                  rw [hrest (fun f hf => ih f (List.mem_cons_of_mem _ hf)) htail]
  | _ => cases h; rfl

end Concealed

/-! ## The gap between two policies -/

section Gap

variable {σ : Type} {places : Places σ} {hides sight reach : Policy σ} {mark : Json} {s : σ}

/-- A policy conceals what another one hides, but for the values in sight. -/
structure ConcealsBut (places : Places σ) (hides sight reach : Policy σ) (mark : Json) : Prop where
  split : ∀ s k v, hides s k v = true → reach s k v = !sight s k v
  left : ∀ s k v, hides s k v = true → sight s k v = true →
    conceal places reach mark (places.enter s k) v = v
  shown : ∀ s k v v', hides s k v = false → hides s k v' = false →
    Alike places hides (places.enter s k) v v' →
      reach s k v = reach s k v' ∧ (reach s k v = true → v = v')
  marked : ∀ s k v, reach s k v = true → reach s k mark = true

/-- Two values conceal the same when the same of the hidden stays in sight, and the lists of what
stays in sight match one to one. -/
def SameInSight (places : Places σ) (hides sight reach : Policy σ) (mark : Json) (s : σ)
    (a b : Json) : Prop :=
  (inSight places hides sight s a).length = (inSight places hides sight s b).length ∧
    (conceal places reach mark s a = conceal places reach mark s b ↔
      inSight places hides sight s a = inSight places hides sight s b)

theorem sameInSight_refl (a : Json) : SameInSight places hides sight reach mark s a a :=
  ⟨rfl, iff_of_true rfl rfl⟩

/-- A hidden value and another in its place conceal the same when both are concealed, or when
they are equal. -/
theorem hidden_eq_iff (h : ConcealsBut places hides sight reach mark) {k : String} {v v' : Json}
    (hv : hides s k v = true) (hv' : hides s k v' = true) :
    (if reach s k v then mark else conceal places reach mark (places.enter s k) v) =
        (if reach s k v' then mark else conceal places reach mark (places.enter s k) v') ↔
      (if sight s k v then some v else none) = if sight s k v' then some v' else none := by
  have hreach := h.split s k v hv
  have hreach' := h.split s k v' hv'
  cases hs : sight s k v with
  | false =>
      cases hs' : sight s k v' with
      | false => simp [hreach, hreach', hs, hs']
      | true =>
          -- the mark itself would be concealed
          have hne : mark ≠ v' := by
            rintro rfl
            have hmark := h.marked s k v (by rw [hreach, hs]; rfl)
            rw [hreach', hs'] at hmark
            exact absurd hmark (by decide)
          simp [hreach, hreach', hs, hs', h.left s k v' hv' hs', hne]
  | true =>
      cases hs' : sight s k v' with
      | false =>
          have hne : v ≠ mark := by
            rintro rfl
            have hmark := h.marked s k v' (by rw [hreach', hs']; rfl)
            rw [hreach, hs] at hmark
            exact absurd hmark (by decide)
          simp [hreach, hreach', hs, hs', h.left s k v hv hs, hne]
      | true => simp [hreach, hreach', hs, hs', h.left s k v hv hs, h.left s k v' hv' hs']

theorem sameInSight_fields (h : ConcealsBut places hides sight reach mark)
    {fields fields' : List (String × Json)}
    (ih : ∀ f ∈ fields, ∀ s b, Alike places hides s f.2 b →
      SameInSight places hides sight reach mark s f.2 b)
    (hfields : AlikeFields places hides s fields fields') :
    (inSightFields places hides sight s fields).length =
        (inSightFields places hides sight s fields').length ∧
      (concealFields places reach mark s fields = concealFields places reach mark s fields' ↔
        inSightFields places hides sight s fields =
          inSightFields places hides sight s fields') := by
  induction fields generalizing fields' with
  | nil => cases hfields; exact ⟨rfl, iff_of_true rfl rfl⟩
  | cons f rest hrest =>
      cases hfields with
      | hidden hv hv' htail =>
          rename_i k v v' rest'
          obtain ⟨hlength, hiff⟩ := hrest (fun f hf => ih f (List.mem_cons_of_mem _ hf)) htail
          simp only [inSightFields, concealFields, hv, hv', if_true, List.cons.injEq, Prod.mk.injEq,
            true_and, List.singleton_append, List.length_cons, hlength, hiff,
            hidden_eq_iff h hv hv']
      | shown hv hv' hvalue htail =>
          rename_i k v v' rest'
          obtain ⟨hlength, hiff⟩ := hrest (fun f hf => ih f (List.mem_cons_of_mem _ hf)) htail
          obtain ⟨hvlength, hviff⟩ := ih (k, v) List.mem_cons_self _ _ hvalue
          obtain ⟨hreach, hsame⟩ := h.shown s k v v' hv hv' hvalue
          have hhead : (if reach s k v then mark
                else conceal places reach mark (places.enter s k) v) =
              (if reach s k v' then mark
                else conceal places reach mark (places.enter s k) v') ↔
              inSight places hides sight (places.enter s k) v =
                inSight places hides sight (places.enter s k) v' := by
            rw [← hreach]
            cases hr : reach s k v with
            | true =>
                obtain rfl := hsame hr
                exact iff_of_true rfl rfl
            | false => exact hviff
          simp only [inSightFields, concealFields, hv, hv', if_false, List.cons.injEq,
            Prod.mk.injEq, true_and, List.length_append, hvlength, hlength, hhead, hiff,
            Bool.false_eq_true]
          exact ⟨fun hboth => by rw [hboth.1, hboth.2], fun happ => List.append_inj happ hvlength⟩

theorem sameInSight_items
    {items items' : List Json}
    (ih : ∀ j ∈ items, ∀ s b, Alike places hides s j b →
      SameInSight places hides sight reach mark s j b)
    (hitems : AlikeItems places hides s items items') :
    (inSightItems places hides sight s items).length =
        (inSightItems places hides sight s items').length ∧
      (concealItems places reach mark s items = concealItems places reach mark s items' ↔
        inSightItems places hides sight s items = inSightItems places hides sight s items') := by
  induction items generalizing items' with
  | nil => cases hitems; exact ⟨rfl, iff_of_true rfl rfl⟩
  | cons j rest hrest =>
      cases hitems with
      | cons hj htail =>
          obtain ⟨hlength, hiff⟩ := hrest (fun j hj => ih j (List.mem_cons_of_mem _ hj)) htail
          obtain ⟨hjlength, hjiff⟩ := ih j List.mem_cons_self _ _ hj
          simp only [inSightItems, concealItems, List.cons.injEq, List.length_append, hjlength,
            hlength, hjiff, hiff, true_and]
          exact ⟨fun hboth => by rw [hboth.1, hboth.2], fun happ => List.append_inj happ hjlength⟩

theorem sameInSight_of_alike (h : ConcealsBut places hides sight reach mark) {a b : Json}
    (hab : Alike places hides s a b) : SameInSight places hides sight reach mark s a b := by
  induction a using induction_members generalizing s b with
  | arr items ih =>
      cases hab with
      | same => exact sameInSight_refl _
      | arr hitems =>
          obtain ⟨hlength, hiff⟩ := sameInSight_items (fun j hj s b => ih j hj) hitems
          exact ⟨hlength, by rw [conceal, conceal, arr.injEq, hiff, inSight, inSight]⟩
  | obj fields ih =>
      cases hab with
      | same => exact sameInSight_refl _
      | obj hfields =>
          obtain ⟨hlength, hiff⟩ := sameInSight_fields h (fun f hf s b => ih f hf) hfields
          exact ⟨hlength, by rw [conceal, conceal, obj.injEq, hiff, inSight, inSight]⟩
  | _ => cases hab; exact sameInSight_refl _

/-- Where two values differ only in what is hidden, they conceal the same exactly when the hidden
values in sight are the same. -/
theorem conceal_eq_iff (h : ConcealsBut places hides sight reach mark) {a b : Json}
    (hab : Alike places hides s a b) :
    conceal places reach mark s a = conceal places reach mark s b ↔
      inSight places hides sight s a = inSight places hides sight s b :=
  (sameInSight_of_alike h hab).2

end Gap

end IllumioOps.Json
