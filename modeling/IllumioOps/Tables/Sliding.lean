import IllumioOps.Tables.Keyed
import Mathlib.Data.Finset.Card
import Mathlib.Algebra.Order.Group.Int
import Mathlib.Data.List.Sort

/-!
# Sliding windows

One pass over rows sorted by time: the rows of the window that ends at the row just read are counted by
key, those that fall out of it are counted down. What the pass sees at each row is the number of distinct
keys among the rows read so far that lie in the window (`sweep_eq`).
-/

set_option autoImplicit false

namespace IllumioOps.Tables

/-! ## Counters -/

section Counters

variable {κ : Type} [DecidableEq κ] {d : List (κ × Nat)} {ks : List κ} {k : κ}

/-- `counts[k] += 1` -/
def countUp (k : κ) (d : List (κ × Nat)) : List (κ × Nat) := alter k (fun n => n.getD 0 + 1) d

/-- `counts[k] -= 1`, and nothing is kept of a key that is not counted. -/
def countDown (k : κ) (d : List (κ × Nat)) : List (κ × Nat) :=
  (alter k (fun n => n.getD 0 - 1) d).filter fun e => !(decide (e.1 = k) && decide (e.2 = 0))

/-- A counter of these keys. -/
structure Counts (d : List (κ × Nat)) (ks : List κ) : Prop where
  nodup : (d.map Prod.fst).Nodup
  lookup : ∀ k, d.lookup k = if ks.count k = 0 then none else some (ks.count k)

theorem counts_nil : Counts ([] : List (κ × Nat)) [] := ⟨List.nodup_nil, fun _ => rfl⟩

theorem Counts.countUp (h : Counts d ks) (k : κ) : Counts (countUp k d) (ks ++ [k]) := by
  refine ⟨nodup_keys_alter h.nodup, fun k' => ?_⟩
  rw [List.count_append, List.count_singleton]
  by_cases hk : k' = k
  · subst hk
    rw [Tables.countUp, lookup_alter_self, h.lookup]
    by_cases hzero : ks.count k' = 0 <;> simp [hzero]
  · have hne : (k == k') = false := by rw [beq_eq_false_iff_ne]; exact fun h => hk h.symm
    simp [Tables.countUp, lookup_alter_of_ne hk, h.lookup, hne]

/-- With distinct keys, a key that is kept stands for what it stood for. -/
theorem lookup_filter (hnodup : (d.map Prod.fst).Nodup) (p : κ × Nat → Bool) (k : κ) :
    (d.filter p).lookup k = (d.lookup k).filter fun n => p (k, n) := by
  have hsub : ((d.filter p).map Prod.fst).Nodup :=
    hnodup.sublist (List.filter_sublist.map Prod.fst)
  refine Option.ext fun n => ?_
  rw [lookup_eq_some_iff_mem hsub, List.mem_filter, Option.filter_eq_some_iff,
    lookup_eq_some_iff_mem hnodup]

theorem Counts.countDown (h : Counts d (k :: ks)) : Counts (countDown k d) ks := by
  have hnodup : ((alter k (fun n => n.getD 0 - 1) d).map Prod.fst).Nodup := nodup_keys_alter h.nodup
  refine ⟨hnodup.sublist (List.filter_sublist.map Prod.fst), fun k' => ?_⟩
  rw [Tables.countDown, lookup_filter hnodup]
  by_cases hk : k' = k
  · subst hk
    rw [lookup_alter_self, h.lookup, List.count_cons_self, if_neg (Nat.succ_ne_zero _)]
    by_cases hzero : ks.count k' = 0 <;> simp [Option.filter, hzero]
  · rw [lookup_alter_of_ne hk, h.lookup, List.count_cons_of_ne fun h => hk h.symm]
    by_cases hzero : ks.count k' = 0 <;> simp [Option.filter, hzero, hk]

/-- A counter has an entry for every key it counts. -/
theorem Counts.length_eq (h : Counts d ks) : d.length = ks.toFinset.card := by
  have hmem : (d.map Prod.fst).toFinset = ks.toFinset := by
    ext k
    rw [List.mem_toFinset, List.mem_toFinset, ← List.count_pos_iff (l := ks), List.mem_map]
    constructor
    · rintro ⟨⟨k', n⟩, hmem, rfl⟩
      have hlookup := (lookup_eq_some_iff_mem h.nodup).2 hmem
      rw [h.lookup] at hlookup
      refine Nat.pos_of_ne_zero fun hzero => ?_
      rw [if_pos hzero] at hlookup
      cases hlookup
    · intro hpos
      have hlookup := h.lookup k
      rw [if_neg (by omega)] at hlookup
      exact ⟨_, (lookup_eq_some_iff_mem h.nodup).1 hlookup, rfl⟩
  rw [← hmem, List.toFinset_card_of_nodup h.nodup, List.length_map]

end Counters

/-! ## The pass -/

section Sweep

variable {α β κ : Type} [DecidableEq κ] (time : α → Int) (key : α → κ) (width : Nat)

/-- The rows that fall out of the window are counted down, from row `j` on. -/
def evict (bound : Int) : List α → List (κ × Nat) → Nat → List (κ × Nat) × Nat
  | [], counts, j => (counts, j)
  | r :: rest, counts, j =>
      if time r < bound then evict bound rest (countDown (key r) counts) (j + 1) else (counts, j)

/-- The loop over the rows from row `i` on; `f` is what is done at a row, with the number of keys of the
window that ends there, and the indexes of its first and its last row. -/
def sweepFrom (rows : List α) (f : β → α → Nat → Nat → Nat → β) :
    List α → Nat → List (κ × Nat) → Nat → β → β
  | [], _, _, _, acc => acc
  | o :: rest, i, counts, j, acc =>
      let (counts, j) := evict time key (time o - width) (rows.drop j) (countUp (key o) counts) j
      sweepFrom rows f rest (i + 1) counts j (f acc o counts.length j i)

def sweep (rows : List α) (f : β → α → Nat → Nat → Nat → β) (acc : β) : β :=
  sweepFrom time key width rows f rows 0 [] 0 acc

/-- The rows up to row `i` that lie in the window that ends with `o`. -/
def rowsIn (rows : List α) (i : Nat) (o : α) : List α :=
  (rows.take (i + 1)).filter fun r => decide (time o - width ≤ time r)

/-- The index of the first of them. -/
def firstIn (rows : List α) (i : Nat) (o : α) : Nat :=
  (rows.take (i + 1)).countP fun r => decide (time r < time o - width)

variable {time key width}

/-- Rows fall out up to the first that is not too early. -/
theorem evict_spec {bound : Int} {ws rest : List α} {counts : List (κ × Nat)} {j : Nat}
    (h : Counts counts (ws.map key)) (hstop : ∃ r ∈ ws, ¬ time r < bound) :
    ∃ counts' out kept, ws = out ++ kept ∧
      evict time key bound (ws ++ rest) counts j = (counts', j + out.length) ∧
      Counts counts' (kept.map key) ∧ (∀ r ∈ out, time r < bound) ∧
      ∀ r ∈ kept.head?, ¬ time r < bound := by
  induction ws generalizing counts j with
  | nil =>
    obtain ⟨r, hr, -⟩ := hstop
    exact absurd hr List.not_mem_nil
  | cons r ws ih =>
    rw [List.cons_append, evict]
    by_cases hr : time r < bound
    · have hstop' : ∃ q ∈ ws, ¬ time q < bound := by
        obtain ⟨q, hq, hge⟩ := hstop
        rcases List.mem_cons.1 hq with rfl | hq
        · exact absurd hr hge
        · exact ⟨q, hq, hge⟩
      obtain ⟨counts', out, kept, rfl, heq, hcounts, hout, hkept⟩ := ih (j := j + 1) h.countDown hstop'
      refine ⟨counts', r :: out, kept, rfl, ?_, hcounts, ?_, hkept⟩
      · rw [if_pos hr, heq, List.length_cons, Nat.add_assoc, Nat.add_comm 1]
      · intro q hq
        rcases List.mem_cons.1 hq with rfl | hq
        · exact hr
        · exact hout q hq
    · refine ⟨counts, [], r :: ws, rfl, ?_, h, fun q hq => absurd hq List.not_mem_nil, ?_⟩
      · rw [if_neg hr, List.length_nil, Nat.add_zero]
      · intro q hq
        obtain rfl := Option.some.inj hq
        exact hr

/-- Of sorted rows, what is left when the first is not too early are those that are not. -/
theorem eq_filter_of_sorted {bound : Int} {out kept : List α}
    (hsorted : (out ++ kept).Pairwise fun a b => time a ≤ time b) (hout : ∀ r ∈ out, time r < bound)
    (hkept : ∀ r ∈ kept.head?, ¬ time r < bound) :
    kept = (out ++ kept).filter fun r => decide (bound ≤ time r) := by
  have hall : ∀ r ∈ kept, decide (bound ≤ time r) = true := by
    cases kept with
    | nil => exact fun r hr => absurd hr List.not_mem_nil
    | cons q kept =>
      have hq := hkept q rfl
      have hlater := (List.pairwise_cons.1 (List.pairwise_append.1 hsorted).2.1).1
      intro r hr
      rw [decide_eq_true_iff]
      rcases List.mem_cons.1 hr with rfl | hr
      · omega
      · have := hlater r hr
        omega
  have hnone : out.filter (fun r => decide (bound ≤ time r)) = [] := by
    refine List.filter_eq_nil_iff.2 fun r hr => ?_
    have := hout r hr
    rw [decide_eq_true_iff]
    omega
  rw [List.filter_append, hnone, List.nil_append, List.filter_eq_self.2 hall]

/-- What has fallen out of the window before some rows: the first `j` of the rows before them, all earlier
than the windows to come; the counter counts the others. -/
structure Swept (time : α → Int) (key : α → κ) (width : Nat) (done rest : List α)
    (counts : List (κ × Nat)) (j : Nat) : Prop where
  out : ∀ r ∈ done.take j, ∀ o ∈ rest, time r < time o - width
  counted : Counts counts ((done.drop j).map key)
  le : j ≤ done.length

/-- One turn of the loop. -/
theorem Swept.turn {done rest : List α} {o : α} {counts : List (κ × Nat)} {j : Nat}
    (h : Swept time key width done (o :: rest) counts j)
    (hsorted : (done ++ o :: rest).Pairwise fun a b => time a ≤ time b) :
    ∃ counts' j', evict time key (time o - width) ((done ++ o :: rest).drop j)
        (countUp (key o) counts) j = (counts', j') ∧
      Swept time key width (done ++ [o]) rest counts' j' ∧
      (done ++ [o]).drop j' = (done ++ [o]).filter (fun r => decide (time o - width ≤ time r)) ∧
      j' = (done ++ [o]).countP fun r => decide (time r < time o - width) := by
  have hsplit : done ++ o :: rest = (done ++ [o]) ++ rest := by rw [List.append_assoc]; rfl
  have hread : (done ++ [o]).Pairwise fun a b => time a ≤ time b := by
    rw [hsplit] at hsorted
    exact (List.pairwise_append.1 hsorted).1
  have hafter : ∀ q ∈ rest, time o ≤ time q := by
    have h' := (List.pairwise_append.1 hsorted).2.1
    exact (List.pairwise_cons.1 h').1
  -- the window before anything falls out of it
  have hws : (done ++ o :: rest).drop j = (done.drop j ++ [o]) ++ rest := by
    rw [List.drop_append_of_le_length h.le, List.append_assoc]
    rfl
  have hcounts : Counts (countUp (key o) counts) ((done.drop j ++ [o]).map key) := by
    rw [List.map_append]
    exact h.counted.countUp (key o)
  obtain ⟨counts', out, kept, hsame, heq, hcounts', hout, hkept⟩ :=
    @evict_spec α κ _ time key (time o - width) (done.drop j ++ [o]) rest _ j hcounts
      ⟨o, List.mem_append_right _ (List.mem_singleton_self o), by omega⟩
  have hearlier : ∀ r ∈ done.take j ++ out, time r < time o - width := by
    intro r hr
    rcases List.mem_append.1 hr with hr | hr
    · exact h.out r hr o List.mem_cons_self
    · exact hout r hr
  have hdone : done ++ [o] = (done.take j ++ out) ++ kept := by
    rw [List.append_assoc, ← hsame, ← List.append_assoc, List.take_append_drop]
  have hlen : (done.take j ++ out).length = j + out.length := by
    rw [List.length_append, List.length_take, Nat.min_eq_left h.le]
  have hdrop : (done ++ [o]).drop (j + out.length) = kept := by
    rw [hdone, ← hlen, List.drop_left]
  have hfilter := eq_filter_of_sorted (hdone ▸ hread) hearlier hkept
  refine ⟨counts', j + out.length, hws ▸ heq, ⟨?_, hdrop ▸ hcounts', ?_⟩, ?_, ?_⟩
  · intro r hr q hq
    rw [hdone, ← hlen, List.take_left] at hr
    have := hearlier r hr
    have := hafter q hq
    omega
  · rw [hdone, List.length_append, hlen]
    omega
  · rw [hdrop]
    exact hfilter.trans (by rw [← hdone])
  · have hnone : kept.countP (fun r => decide (time r < time o - width)) = 0 := by
      refine List.countP_eq_zero.2 fun r hr => ?_
      rw [hfilter, List.mem_filter, decide_eq_true_iff] at hr
      rw [decide_eq_true_iff]
      omega
    rw [hdone, List.countP_append, hnone, Nat.add_zero, ← hlen, eq_comm, List.countP_eq_length]
    exact fun r hr => decide_eq_true (hearlier r hr)

/-- The loop from some row on. -/
theorem sweepFrom_eq {rows : List α} (hsorted : rows.Pairwise fun a b => time a ≤ time b)
    (f : β → α → Nat → Nat → Nat → β) {done rest : List α} (hrows : rows = done ++ rest)
    {counts : List (κ × Nat)} {j : Nat} (h : Swept time key width done rest counts j) (acc : β) :
    sweepFrom time key width rows f rest done.length counts j acc =
      (rest.zipIdx done.length).foldl (fun acc p =>
        f acc p.1 ((rowsIn time width rows p.2 p.1).map key).toFinset.card
          (firstIn time width rows p.2 p.1) p.2) acc := by
  induction rest generalizing done counts j acc with
  | nil => rfl
  | cons o rest ih =>
    subst hrows
    obtain ⟨counts', j', heq, hswept, hwindow, hfirst⟩ := h.turn hsorted
    have hsplit : done ++ o :: rest = (done ++ [o]) ++ rest := by rw [List.append_assoc]; rfl
    have hlen : (done ++ [o]).length = done.length + 1 := by simp
    have hread : (done ++ o :: rest).take (done.length + 1) = done ++ [o] := by
      rw [hsplit, ← hlen, List.take_left]
    -- the rows counted are those of the window that were read so far
    have hin : rowsIn time width (done ++ o :: rest) done.length o = (done ++ [o]).drop j' := by
      rw [rowsIn, hwindow, hread]
    have hj : firstIn time width (done ++ o :: rest) done.length o = j' := by
      rw [firstIn, hfirst, hread]
    rw [sweepFrom, heq]
    simp only [List.zipIdx_cons, List.foldl_cons, hin, hj, ← hswept.counted.length_eq]
    rw [← hlen, ih hsplit hswept]

/-- Over sorted rows, what is done at each row is done with the number of distinct keys of the rows
read so far that lie in the window that ends there. -/
theorem sweep_eq {rows : List α} (hsorted : rows.Pairwise fun a b => time a ≤ time b)
    (f : β → α → Nat → Nat → Nat → β) (acc : β) :
    sweep time key width rows f acc =
      rows.zipIdx.foldl (fun acc p =>
        f acc p.1 ((rowsIn time width rows p.2 p.1).map key).toFinset.card
          (firstIn time width rows p.2 p.1) p.2) acc :=
  sweepFrom_eq hsorted f (show rows = [] ++ rows from rfl)
    ⟨fun r hr => absurd hr (by simp), counts_nil, Nat.le_refl 0⟩ acc

/-! ## The rows of a window -/

/-- All rows in the window that ends at a time, wherever they stand. -/
def rowsAt (time : α → Int) (width : Nat) (rows : List α) (t : Int) : List α :=
  rows.filter fun r => decide (t - width ≤ time r ∧ time r ≤ t)

theorem mem_rowsAt {rows : List α} {t : Int} {r : α} :
    r ∈ rowsAt time width rows t ↔ r ∈ rows ∧ t - width ≤ time r ∧ time r ≤ t := by
  rw [rowsAt, List.mem_filter, decide_eq_true_iff]

/-- A row that was read lies in the window if it is not too early; the window has more when a later row
has the same time. -/
theorem mem_rowsAt_iff_of_sorted {rows : List α}
    (hsorted : rows.Pairwise fun a b => time a ≤ time b) {i : Nat} {o : α} (hi : rows[i]? = some o)
    {r : α} :
    r ∈ rowsAt time width rows (time o) ↔
      r ∈ rowsIn time width rows i o ∨ ∃ k, i < k ∧ rows[k]? = some r ∧ time r = time o := by
  have hle : ∀ {a b : Nat} {p q : α}, a < b → rows[a]? = some p → rows[b]? = some q →
      time p ≤ time q := by
    intro a b p q hab hp hq
    obtain ⟨ha, rfl⟩ := List.getElem?_eq_some_iff.1 hp
    obtain ⟨hb, rfl⟩ := List.getElem?_eq_some_iff.1 hq
    exact List.pairwise_iff_getElem.1 hsorted a b ha hb hab
  rw [mem_rowsAt, rowsIn, List.mem_filter, decide_eq_true_iff]
  constructor
  · rintro ⟨hr, hlo, hhi⟩
    obtain ⟨k, hk⟩ := List.mem_iff_getElem?.1 hr
    by_cases hik : i < k
    · exact Or.inr ⟨k, hik, hk, le_antisymm hhi (hle hik hi hk)⟩
    · refine Or.inl ⟨List.mem_iff_getElem?.2 ⟨k, ?_⟩, hlo⟩
      rw [List.getElem?_take_of_lt (by omega), hk]
  · rintro (⟨hr, hlo⟩ | ⟨k, hik, hk, heq⟩)
    · obtain ⟨k, hk⟩ := List.mem_iff_getElem?.1 hr
      have hki : k < i + 1 := by
        by_contra hge
        rw [List.getElem?_take_eq_none (by omega)] at hk
        cases hk
      rw [List.getElem?_take_of_lt hki] at hk
      refine ⟨List.mem_of_getElem? hk, hlo, ?_⟩
      rcases Nat.lt_or_ge k i with hlt | hge
      · exact hle hlt hk hi
      · obtain rfl : k = i := by omega
        rw [hi] at hk
        rw [Option.some.inj hk]
    · exact ⟨List.mem_of_getElem? hk, by omega, heq.le⟩

end Sweep

/-! ## Running maxima -/

section Maxima

variable {σ γ : Type} (top : σ → Option Nat) (counts : γ → Prop) (value : γ → Nat) (turn : σ → γ → σ)

/-- A loop that keeps the greatest value of what counts: it ends with a value no less than any of them and
any from before, and that value is one of these. -/
theorem foldl_max
    (hturn : ∀ s p, counts p → top (turn s p) = some (max ((top s).getD 0) (value p)))
    (hskip : ∀ s p, ¬ counts p → top (turn s p) = top s) (ps : List γ) (s : σ) :
    (∀ p ∈ ps, counts p → ∃ n, top (ps.foldl turn s) = some n ∧ value p ≤ n) ∧
      (∀ m, top s = some m → ∃ n, top (ps.foldl turn s) = some n ∧ m ≤ n) ∧
      ∀ n, top (ps.foldl turn s) = some n → top s = some n ∨ ∃ p ∈ ps, counts p ∧ n = value p := by
  induction ps generalizing s with
  | nil =>
    exact ⟨fun p hp => absurd hp List.not_mem_nil, fun m hm => ⟨m, hm, Nat.le_refl m⟩,
      fun n hn => Or.inl hn⟩
  | cons p ps ih =>
    obtain ⟨hall, hold, hfrom⟩ := ih (turn s p)
    rw [List.foldl_cons]
    by_cases hp : counts p
    · obtain ⟨n, hn, hle⟩ := hold _ (hturn s p hp)
      refine ⟨?_, fun m hm => ⟨n, hn, ?_⟩, fun k hk => ?_⟩
      · intro q hq hcounts
        rcases List.mem_cons.1 hq with rfl | hq
        · exact ⟨n, hn, (Nat.le_max_right _ _).trans hle⟩
        · exact hall q hq hcounts
      · rw [hm, Option.getD_some] at hle
        exact (Nat.le_max_left _ _).trans hle
      · rcases hfrom k hk with heq | ⟨q, hq, h⟩
        · rw [hturn s p hp] at heq
          obtain rfl := Option.some.inj heq
          rcases Nat.le_total ((top s).getD 0) (value p) with hle | hle
          · exact Or.inr ⟨p, List.mem_cons_self, hp, Nat.max_eq_right hle⟩
          · rw [Nat.max_eq_left hle]
            cases htop : top s with
            | none =>
              rw [htop, Option.getD_none] at hle
              exact Or.inr ⟨p, List.mem_cons_self, hp, by simp [Nat.le_zero.1 hle]⟩
            | some m => exact Or.inl rfl
        · exact Or.inr ⟨q, List.mem_cons_of_mem p hq, h⟩
    · rw [hskip s p hp] at hold hfrom
      refine ⟨fun q hq hcounts => ?_, hold, fun k hk => ?_⟩
      · rcases List.mem_cons.1 hq with rfl | hq
        · exact absurd hcounts hp
        · exact hall q hq hcounts
      · rcases hfrom k hk with heq | ⟨q, hq, h⟩
        · exact Or.inl heq
        · exact Or.inr ⟨q, List.mem_cons_of_mem p hq, h⟩

end Maxima

end IllumioOps.Tables
