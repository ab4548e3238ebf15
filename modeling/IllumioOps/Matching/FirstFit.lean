import Mathlib.Data.List.Basic
import Mathlib.Data.List.Dedup
import Mathlib.Data.List.Nodup
import Mathlib.Data.List.Pairwise
import Mathlib.Data.List.Perm.Subperm

/-!
# First-fit matching of two lists

Each element of a first list takes, in order, the first element of a second list
that fits it and is not taken yet. `firstFit` is the loop with a set of taken
keys, as programs write it; `matchFirst` is the recursion that removes what is
taken. The two agree when keys are unique (`firstFit_pairs_eq`), so what a match
looks like does not depend on the keys that the loop tells elements apart by.
-/

set_option autoImplicit false

namespace IllumioOps.Matching

variable {α β κ : Type}

/-! ## The recursion that removes what is taken -/

/-- Every element of the first list with the partner it takes. -/
def matchFirst (fits : α → β → Bool) : List α → List β → List (α × Option β)
  | [], _ => []
  | a :: as, bs =>
      match bs.find? (fits a) with
      | none => (a, none) :: matchFirst fits as bs
      | some b => (a, some b) :: matchFirst fits as (bs.eraseP (fits a))

/-- The partners that were taken, in the order they were. -/
def partners (pairs : List (α × Option β)) : List β := pairs.filterMap Prod.snd

@[simp] theorem partners_nil : partners ([] : List (α × Option β)) = [] := rfl

@[simp] theorem partners_cons_none (a : α) (pairs : List (α × Option β)) :
    partners ((a, none) :: pairs) = partners pairs := rfl

@[simp] theorem partners_cons_some (a : α) (b : β) (pairs : List (α × Option β)) :
    partners ((a, some b) :: pairs) = b :: partners pairs := rfl

theorem mem_partners {pairs : List (α × Option β)} {b : β} :
    b ∈ partners pairs ↔ ∃ a, (a, some b) ∈ pairs := by
  simp only [partners, List.mem_filterMap, Prod.exists]
  constructor
  · rintro ⟨a, o, hmem, rfl⟩
    exact ⟨a, hmem⟩
  · rintro ⟨a, hmem⟩
    exact ⟨a, some b, hmem, rfl⟩

/-- Every element of the first list appears once, in order. -/
theorem matchFirst_fst (fits : α → β → Bool) (as : List α) (bs : List β) :
    (matchFirst fits as bs).map Prod.fst = as := by
  induction as generalizing bs with
  | nil => rfl
  | cons a as ih =>
      cases hfind : bs.find? (fits a) with
      | none => simp only [matchFirst, hfind, List.map_cons, ih]
      | some b => simp only [matchFirst, hfind, List.map_cons, ih]

theorem perm_cons_eraseP {p : β → Bool} {b : β} {bs : List β} (h : bs.find? p = some b) :
    bs.Perm (b :: bs.eraseP p) := by
  induction bs with
  | nil => simp at h
  | cons c bs ih =>
      by_cases hc : p c = true
      · have hcb : c = b := by simpa [List.find?_cons, hc] using h
        subst hcb
        rw [List.eraseP_cons_of_pos hc]
      · have htail : bs.find? p = some b := by simpa [List.find?_cons, hc] using h
        rw [List.eraseP_cons_of_neg hc]
        exact ((ih htail).cons c).trans (List.Perm.swap b c _)

/-- A partner fits and comes from the second list. -/
theorem matchFirst_mem {fits : α → β → Bool} {as : List α} {bs : List β} {a : α} {b : β}
    (h : (a, some b) ∈ matchFirst fits as bs) : a ∈ as ∧ b ∈ bs ∧ fits a b = true := by
  induction as generalizing bs with
  | nil => simp [matchFirst] at h
  | cons c as ih =>
      cases hfind : bs.find? (fits c) with
      | none =>
          simp only [matchFirst, hfind, List.mem_cons, Prod.mk.injEq, reduceCtorEq, and_false,
            false_or] at h
          obtain ⟨ha, hb, hfit⟩ := ih h
          exact ⟨List.mem_cons_of_mem _ ha, hb, hfit⟩
      | some d =>
          simp only [matchFirst, hfind, List.mem_cons, Prod.mk.injEq, Option.some.injEq] at h
          rcases h with ⟨rfl, rfl⟩ | h
          · exact ⟨List.mem_cons_self, List.mem_of_find?_eq_some hfind,
              List.find?_some hfind⟩
          · obtain ⟨ha, hb, hfit⟩ := ih h
            exact ⟨List.mem_cons_of_mem _ ha, List.mem_of_mem_eraseP hb, hfit⟩

/-- Nothing is taken twice: the partners are a part of the second list. -/
theorem partners_matchFirst_subperm (fits : α → β → Bool) (as : List α) (bs : List β) :
    (partners (matchFirst fits as bs)).Subperm bs := by
  induction as generalizing bs with
  | nil => exact List.nil_subperm
  | cons a as ih =>
      cases hfind : bs.find? (fits a) with
      | none =>
          simp only [matchFirst, hfind, partners_cons_none]
          exact ih bs
      | some b =>
          simp only [matchFirst, hfind, partners_cons_some]
          exact ((List.subperm_cons b).2 (ih _)).trans (perm_cons_eraseP hfind).symm.subperm

/-- Of partners that are all different, each is in one pair. -/
theorem eq_of_partner {pairs : List (α × Option β)} (h : (partners pairs).Nodup) {p q : α × Option β}
    {b : β} (hp : p ∈ pairs) (hq : q ∈ pairs) (hpb : p.2 = some b) (hqb : q.2 = some b) :
    p = q := by
  unfold partners List.Nodup at h
  rw [List.pairwise_filterMap] at h
  by_contra hne
  have hsymm : Std.Symm fun p q : α × Option β =>
      ∀ c, p.2 = some c → ∀ d, q.2 = some d → c ≠ d :=
    ⟨fun _ _ hpq c hc d hd => (hpq d hd c hc).symm⟩
  exact h.forall hp hq hne b hpb b hqb rfl

/-- Nothing of a list without repeats is taken by two. -/
theorem matchFirst_taker_unique {fits : α → β → Bool} {as : List α} {bs : List β} (h : bs.Nodup)
    {a a' : α} {b : β} (ha : (a, some b) ∈ matchFirst fits as bs)
    (ha' : (a', some b) ∈ matchFirst fits as bs) : a = a' := by
  obtain ⟨l, hl, hsub⟩ := partners_matchFirst_subperm fits as bs
  have hnodup : (partners (matchFirst fits as bs)).Nodup := hl.nodup_iff.1 (h.sublist hsub)
  exact congrArg Prod.fst (eq_of_partner hnodup ha ha' rfl rfl)

/-- The elements of some pairs: first the ones that take, then the ones taken. -/
theorem flatMap_pairs_perm (pairs : List (α × Option α)) :
    (pairs.flatMap fun p => p.1 :: p.2.toList).Perm (pairs.map Prod.fst ++ partners pairs) := by
  induction pairs with
  | nil => exact List.Perm.refl _
  | cons p pairs ih =>
      obtain ⟨a, partner⟩ := p
      rw [List.flatMap_cons, List.map_cons, List.cons_append, List.cons_append]
      apply List.Perm.cons
      cases partner with
      | none => exact ih
      | some b =>
          rw [partners_cons_some]
          exact (ih.cons b).trans List.perm_middle.symm

/-- Renaming the elements of both lists renames the pairs. -/
theorem matchFirst_map {α' β' : Type} (f : α → α') (g : β → β') (fits : α → β → Bool)
    (fits' : α' → β' → Bool) (hfits : ∀ a b, fits' (f a) (g b) = fits a b) (as : List α)
    (bs : List β) :
    matchFirst fits' (as.map f) (bs.map g) =
      (matchFirst fits as bs).map fun p => (f p.1, p.2.map g) := by
  induction as generalizing bs with
  | nil => rfl
  | cons a as ih =>
      have hcomp : (fits' (f a) ∘ g) = fits a := by
        funext b
        exact hfits a b
      have hfind : (bs.map g).find? (fits' (f a)) = (bs.find? (fits a)).map g := by
        rw [List.find?_map, hcomp]
      have herase : (bs.map g).eraseP (fits' (f a)) = (bs.eraseP (fits a)).map g := by
        rw [List.eraseP_map, hcomp]
      cases hb : bs.find? (fits a) with
      | none =>
          simp only [List.map_cons, matchFirst, hfind, hb, Option.map_none, ih]
      | some b =>
          simp only [List.map_cons, matchFirst, hfind, hb, Option.map_some, herase, ih]

theorem find?_filter_of_pos {p q : β → Bool} {b : β} {bs : List β} (h : bs.find? p = some b)
    (hb : q b = true) : (bs.filter q).find? p = some b := by
  induction bs with
  | nil => simp at h
  | cons c bs ih =>
      by_cases hc : p c = true
      · have hcb : c = b := by simpa [List.find?_cons, hc] using h
        subst hcb
        rw [List.filter_cons_of_pos hb, List.find?_cons_of_pos hc]
      · have htail : bs.find? p = some b := by simpa [List.find?_cons, hc] using h
        rw [List.filter_cons]
        split
        · rw [List.find?_cons_of_neg hc, ih htail]
        · exact ih htail

theorem eraseP_filter_of_pos {p q : β → Bool} {b : β} {bs : List β} (h : bs.find? p = some b)
    (hb : q b = true) : (bs.filter q).eraseP p = (bs.eraseP p).filter q := by
  induction bs with
  | nil => simp at h
  | cons c bs ih =>
      by_cases hc : p c = true
      · have hcb : c = b := by simpa [List.find?_cons, hc] using h
        subst hcb
        rw [List.filter_cons_of_pos hb, List.eraseP_cons_of_pos hc, List.eraseP_cons_of_pos hc]
      · have htail : bs.find? p = some b := by simpa [List.find?_cons, hc] using h
        rw [List.eraseP_cons_of_neg hc, List.filter_cons, List.filter_cons]
        split
        · rw [List.eraseP_cons_of_neg hc, ih htail]
        · exact ih htail

theorem filter_eraseP_of_neg {p q : β → Bool} {b : β} {bs : List β} (h : bs.find? p = some b)
    (hb : q b = false) : (bs.eraseP p).filter q = bs.filter q := by
  induction bs with
  | nil => simp at h
  | cons c bs ih =>
      by_cases hc : p c = true
      · have hcb : c = b := by simpa [List.find?_cons, hc] using h
        subst hcb
        rw [List.eraseP_cons_of_pos hc, List.filter_cons_of_neg (by simp [hb])]
      · have htail : bs.find? p = some b := by simpa [List.find?_cons, hc] using h
        rw [List.eraseP_cons_of_neg hc, List.filter_cons, List.filter_cons, ih htail]

/-- Removing pairs whole, and what nothing took, leaves the other pairs. -/
theorem matchFirst_filter {fits : α → β → Bool} {as : List α} {bs : List β} {keepA : α → Bool}
    {keepB : β → Bool} (h : ∀ a b, (a, some b) ∈ matchFirst fits as bs → keepA a = keepB b) :
    matchFirst fits (as.filter keepA) (bs.filter keepB) =
      (matchFirst fits as bs).filter fun p => keepA p.1 := by
  induction as generalizing bs with
  | nil => rfl
  | cons a as ih =>
      have hpos : ∀ (partner : Option β) (rest : List (α × Option β)), keepA a = true →
          ((a, partner) :: rest).filter (fun p => keepA p.1) =
            (a, partner) :: rest.filter fun p => keepA p.1 :=
        fun _ _ hkeep => List.filter_cons_of_pos hkeep
      have hneg : ∀ (partner : Option β) (rest : List (α × Option β)), keepA a = false →
          ((a, partner) :: rest).filter (fun p => keepA p.1) = rest.filter fun p => keepA p.1 :=
        fun _ _ hkeep => List.filter_cons_of_neg (by simp [hkeep])
      cases hfind : bs.find? (fits a) with
      | none =>
          simp only [matchFirst, hfind, List.mem_cons, Prod.mk.injEq, reduceCtorEq, and_false,
            false_or] at h ⊢
          have hnone : (bs.filter keepB).find? (fits a) = none :=
            List.find?_eq_none.2 fun b hb => List.find?_eq_none.1 hfind b (List.mem_filter.1 hb).1
          cases hkeep : keepA a with
          | true =>
              rw [List.filter_cons_of_pos hkeep, matchFirst, hnone]
              exact (congrArg ((a, none) :: ·) (ih h)).trans (hpos none _ hkeep).symm
          | false =>
              rw [List.filter_cons_of_neg (by simp [hkeep]), hneg none _ hkeep, ih h]
      | some b =>
          simp only [matchFirst, hfind] at h ⊢
          have hrest := ih fun a' b' hab => h a' b' (List.mem_cons_of_mem _ hab)
          have hpair := h a b List.mem_cons_self
          cases hkeep : keepA a with
          | true =>
              -- the partner is kept, and still the first that fits
              have hb : keepB b = true := hpair.symm.trans hkeep
              rw [List.filter_cons_of_pos hkeep, matchFirst, find?_filter_of_pos hfind hb]
              simp only
              rw [eraseP_filter_of_pos hfind hb, hrest, hpos (some b) _ hkeep]
          | false =>
              have hb : keepB b = false := hpair.symm.trans hkeep
              rw [List.filter_cons_of_neg (by simp [hkeep]), hneg (some b) _ hkeep,
                ← filter_eraseP_of_neg hfind hb, hrest]

/-! ## The loop with taken keys -/

/-- What the loop carries: the taken keys and the pairs so far. -/
structure Taken (α β κ : Type) where
  used : List κ
  pairs : List (α × Option β)

variable [DecidableEq κ]

/-- One element takes the first one that fits and whose key is not taken. -/
def takeStep (fits : α → β → Bool) (key : β → κ) (bs : List β) (s : Taken α β κ) (a : α) :
    Taken α β κ :=
  match bs.find? (fun b => decide (key b ∉ s.used) && fits a b) with
  | none => { s with pairs := s.pairs ++ [(a, none)] }
  | some b => { used := key b :: s.used, pairs := s.pairs ++ [(a, some b)] }

def firstFit (fits : α → β → Bool) (key : β → κ) (as : List α) (bs : List β) : Taken α β κ :=
  as.foldl (takeStep fits key bs) ⟨[], []⟩

/-- With unique keys, removing the first hit leaves the elements with another key. -/
theorem eraseP_eq_filter {key : β → κ} {p : β → Bool} {b : β} {bs : List β}
    (hnodup : (bs.map key).Nodup) (h : bs.find? p = some b) :
    bs.eraseP p = bs.filter fun c => decide (key c ≠ key b) := by
  induction bs with
  | nil => simp at h
  | cons c bs ih =>
      rw [List.map_cons, List.nodup_cons] at hnodup
      by_cases hc : p c = true
      · have hcb : c = b := by simpa [List.find?_cons, hc] using h
        subst hcb
        have hrest : ∀ d ∈ bs, key d ≠ key c := by
          intro d hd heq
          exact hnodup.1 (heq ▸ List.mem_map_of_mem hd)
        rw [List.eraseP_cons_of_pos hc, List.filter_cons_of_neg (by simp)]
        exact (List.filter_eq_self.2 fun d hd => by simpa using hrest d hd).symm
      · have htail : bs.find? p = some b := by simpa [List.find?_cons, hc] using h
        have hne : key c ≠ key b := by
          intro heq
          exact hnodup.1 (heq ▸ List.mem_map_of_mem (List.mem_of_find?_eq_some htail))
        rw [List.eraseP_cons_of_neg hc, List.filter_cons_of_pos (by simpa using hne),
          ih hnodup.2 htail]

/-- The elements whose key is not taken. -/
def untaken (key : β → κ) (used : List κ) (bs : List β) : List β :=
  bs.filter fun b => decide (key b ∉ used)

/-- The loop from any point pairs as the recursion does on what is not taken. -/
theorem foldl_takeStep_pairs (fits : α → β → Bool) {key : β → κ} {bs : List β}
    (hnodup : (bs.map key).Nodup) (as : List α) (s : Taken α β κ) :
    (as.foldl (takeStep fits key bs) s).pairs =
      s.pairs ++ matchFirst fits as (untaken key s.used bs) := by
  induction as generalizing s with
  | nil => simp [matchFirst]
  | cons a as ih =>
      have hfind : (untaken key s.used bs).find? (fits a) =
          bs.find? fun b => decide (key b ∉ s.used) && fits a b := by
        rw [untaken, List.find?_filter]
        congr 1
        funext b
        rw [Bool.decide_and, Bool.decide_eq_true, Bool.decide_eq_true]
      rw [List.foldl_cons]
      cases hb : bs.find? fun b => decide (key b ∉ s.used) && fits a b with
      | none =>
          rw [hb] at hfind
          simp only [takeStep, hb, ih, matchFirst, hfind, List.append_assoc, List.singleton_append]
      | some b =>
          rw [hb] at hfind
          have hsub : (untaken key s.used bs).map key |>.Nodup :=
            hnodup.sublist (List.filter_sublist.map key)
          have herase : (untaken key s.used bs).eraseP (fits a) =
              untaken key (key b :: s.used) bs := by
            rw [eraseP_eq_filter hsub hfind, untaken, untaken, List.filter_filter]
            refine List.filter_congr fun c _ => ?_
            simp [not_or]
          simp only [takeStep, hb, ih, matchFirst, hfind, herase, List.append_assoc,
            List.singleton_append]

/-- With unique keys the loop makes the pairs of the recursion. -/
theorem firstFit_pairs_eq (fits : α → β → Bool) {key : β → κ} {bs : List β}
    (hnodup : (bs.map key).Nodup) (as : List α) :
    (firstFit fits key as bs).pairs = matchFirst fits as bs := by
  have h := foldl_takeStep_pairs fits hnodup as ⟨[], []⟩
  simpa [firstFit, untaken] using h

/-- The taken keys are the partners' keys. -/
theorem foldl_takeStep_used (fits : α → β → Bool) (key : β → κ) (bs : List β) (as : List α)
    (s : Taken α β κ) (hs : ∀ k, k ∈ s.used ↔ k ∈ (partners s.pairs).map key) (k : κ) :
    k ∈ (as.foldl (takeStep fits key bs) s).used ↔
      k ∈ (partners (as.foldl (takeStep fits key bs) s).pairs).map key := by
  induction as generalizing s with
  | nil => exact hs k
  | cons a as ih =>
      rw [List.foldl_cons]
      refine ih _ fun j => ?_
      cases hb : bs.find? fun b => decide (key b ∉ s.used) && fits a b with
      | none =>
          simp only [takeStep, hb, partners, List.filterMap_append, List.filterMap_cons,
            List.filterMap_nil, List.append_nil]
          exact hs j
      | some b =>
          have hj := hs j
          simp only [takeStep, hb, partners, List.filterMap_append, List.map_append,
            List.mem_append, List.mem_cons] at hj ⊢
          rw [hj]
          simp [or_comm]

theorem mem_firstFit_used (fits : α → β → Bool) (key : β → κ) (as : List α) (bs : List β) (k : κ) :
    k ∈ (firstFit fits key as bs).used ↔
      k ∈ (partners (firstFit fits key as bs).pairs).map key :=
  foldl_takeStep_used fits key bs as ⟨[], []⟩ (fun _ => by simp) k

/-- The elements left alone and the partners are the whole second list. -/
theorem firstFit_perm (fits : α → β → Bool) {key : β → κ} {bs : List β}
    (hnodup : (bs.map key).Nodup) (as : List α) :
    (partners (firstFit fits key as bs).pairs ++
      untaken key (firstFit fits key as bs).used bs).Perm bs := by
  have hpairs := firstFit_pairs_eq fits hnodup as
  have hsub : (partners (firstFit fits key as bs).pairs).Subperm bs := by
    rw [hpairs]
    exact partners_matchFirst_subperm fits as bs
  have hbs : bs.Nodup := List.Nodup.of_map key hnodup
  have hpn : (partners (firstFit fits key as bs).pairs).Nodup := by
    obtain ⟨l, hl, hlsub⟩ := hsub
    exact hl.nodup_iff.1 (hbs.sublist hlsub)
  have hinj : ∀ b ∈ bs, ∀ c ∈ bs, key b = key c → b = c :=
    fun b hb c hc heq => List.inj_on_of_nodup_map hnodup hb hc heq
  have hkeys : ∀ b ∈ bs, (key b ∈ (firstFit fits key as bs).used ↔
      b ∈ partners (firstFit fits key as bs).pairs) := by
    intro b hb
    rw [mem_firstFit_used, List.mem_map]
    constructor
    · rintro ⟨c, hc, heq⟩
      exact hinj c (hsub.subset hc) b hb heq ▸ hc
    · intro h
      exact ⟨b, h, rfl⟩
  refine (List.perm_ext_iff_of_nodup ?_ hbs).2 fun b => ?_
  · refine List.Nodup.append hpn (hbs.filter _) fun b hb hb' => ?_
    have hb'' := List.mem_filter.1 hb'
    exact (of_decide_eq_true hb''.2) ((hkeys b hb''.1).2 hb)
  · simp only [untaken, List.mem_append, List.mem_filter, decide_eq_true_eq]
    constructor
    · rintro (h | h)
      · exact hsub.subset h
      · exact h.1
    · intro hb
      by_cases hk : key b ∈ (firstFit fits key as bs).used
      · exact Or.inl ((hkeys b hb).1 hk)
      · exact Or.inr ⟨hb, hk⟩

end IllumioOps.Matching
