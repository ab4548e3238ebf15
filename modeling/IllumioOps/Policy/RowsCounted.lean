import IllumioOps.Policy.Ruleset
import IllumioOps.Tables.Distinct
import Mathlib.Algebra.BigOperators.Group.List.Basic

/-!
# Every row is returned or counted

The products of a rule set (`expandedProducts`) are either built or counted, each as a whole
(`Accounted`). What is built becomes rows without repetition and within the limit; what is counted
is the number of rows omitted.
-/

set_option autoImplicit false

namespace IllumioOps.Policy

/-! ## What is to be expanded -/

/-- The products of a rule that is expanded. -/
def ruleProducts (lk : Lookups) (rs : RuleSet) (rule : Rule × Action) : List Product :=
  if ¬ rule.1.enabled then []
  else
    match issueOf lk (rs.scopes.any fun scope => scope.any lk.isUnknown) rule.1 with
    | some _ => []
    | none => products lk (scopeSets lk rs.scopes) rule.1 rule.2

/-- The products of all rules that are expanded, in all scopes. -/
def expandedProducts (lk : Lookups) (rs : RuleSet) : List Product :=
  if ¬ rs.enabled then [] else rs.actions.flatMap (ruleProducts lk rs)

/-! ## The cap -/

/-- The sides of a product, and which of them were summarized. -/
structure Capped (srcs dsts : List String) (p : Product) : Prop where
  src : p.srcs = if .src ∈ p.truncated then [summaryToken srcs.length] else srcs
  dst : p.dsts = if .dst ∈ p.truncated then [summaryToken dsts.length] else dsts
  within : p.size ≤ maxRulePairs ∨ .src ∈ p.truncated ∧ .dst ∈ p.truncated
  needed : p.truncated ≠ [] →
    maxRulePairs < srcs.length * dsts.length * max p.services.length 1

variable {lk : Lookups} {rs : RuleSet} {rule : Rule} {action : Action} {p : Product}
  {scopeIps : Option (List String)} {limit : Option Nat} {name : String}

theorem capped_capSides {srcs dsts : List String} {svcs : List Service}
    (hcap : capSides srcs dsts svcs.length = (p.srcs, p.dsts, p.truncated))
    (hservices : p.services = svcs) : Capped srcs dsts p := by
  have hper : ∀ n, n * svcs.length ≤ n * max svcs.length 1 := fun n =>
    Nat.mul_le_mul_left n (Nat.le_max_left _ _)
  unfold capSides at hcap
  dsimp only at hcap
  split at hcap
  · -- nothing is summarized
    rename_i hfits
    obtain ⟨hsrcs, hdsts, htruncated⟩ := by simpa only [Prod.mk.injEq] using hcap
    refine ⟨by simp [← htruncated, ← hsrcs], by simp [← htruncated, ← hdsts], Or.inl ?_,
      fun h => absurd htruncated.symm h⟩
    rw [Product.size, ← hsrcs, ← hdsts, hservices]
    exact (hper _).trans hfits
  rename_i hover
  have hneeded : maxRulePairs < srcs.length * dsts.length * max p.services.length 1 := by
    rw [hservices]
    exact Nat.lt_of_not_le hover
  split at hcap
  · split at hcap
    · obtain ⟨hsrcs, hdsts, htruncated⟩ := by simpa only [Prod.mk.injEq] using hcap
      exact ⟨by simp [← htruncated, ← hsrcs], by simp [← htruncated, ← hdsts],
        Or.inr (by simp [← htruncated]), fun _ => hneeded⟩
    · rename_i hfits
      obtain ⟨hsrcs, hdsts, htruncated⟩ := by simpa only [Prod.mk.injEq] using hcap
      refine ⟨by simp [← htruncated, ← hsrcs], by simp [← htruncated, ← hdsts], Or.inl ?_,
        fun _ => hneeded⟩
      rw [Product.size, ← hsrcs, ← hdsts, hservices]
      exact (hper _).trans (Nat.le_of_not_lt hfits)
  · split at hcap
    · obtain ⟨hsrcs, hdsts, htruncated⟩ := by simpa only [Prod.mk.injEq] using hcap
      exact ⟨by simp [← htruncated, ← hsrcs], by simp [← htruncated, ← hdsts],
        Or.inr (by simp [← htruncated]), fun _ => hneeded⟩
    · rename_i hfits
      obtain ⟨hsrcs, hdsts, htruncated⟩ := by simpa only [Prod.mk.injEq] using hcap
      refine ⟨by simp [← htruncated, ← hsrcs], by simp [← htruncated, ← hdsts], Or.inl ?_,
        fun _ => hneeded⟩
      rw [Product.size, ← hsrcs, ← hdsts, hservices]
      exact (hper _).trans (Nat.le_of_not_lt hfits)

/-- A product is made of the sides of its rule in a scope. -/
theorem capped_productIn (h : productIn lk rule action scopeIps = some p) :
    (consumerSide lk rule scopeIps).1 ≠ [] ∧ (providerSide lk rule scopeIps).1 ≠ [] ∧
      p.ruleHref = rule.href ∧ p.action = action ∧ p.services = services lk rule ∧
      Capped (consumerSide lk rule scopeIps).1 (providerSide lk rule scopeIps).1 p := by
  by_cases hnone : (consumerSide lk rule scopeIps).1 = [] ∨ (providerSide lk rule scopeIps).1 = []
  · simp only [productIn, if_pos hnone, reduceCtorEq] at h
  · simp only [productIn, if_neg hnone] at h
    obtain rfl := Option.some.inj h
    rw [not_or] at hnone
    exact ⟨hnone.1, hnone.2, rfl, rfl, rfl, capped_capSides rfl rfl⟩

/-! ## Rows -/

theorem keys_addRow {rows : List Row} {keys : List RowKey} (row : Row)
    (h : rows.map Row.key = keys.eraseDups) :
    (addRow rows row).map Row.key = (keys ++ [row.key]).eraseDups := by
  have hmem : row.key ∈ rows.map Row.key ↔ row.key ∈ keys := by
    rw [h, List.mem_eraseDups]
  unfold addRow
  rw [List.eraseDups_append]
  by_cases hkey : row.key ∈ keys
  · rw [if_pos (hmem.2 hkey), h]
    simp [List.removeAll, hkey]
  · rw [if_neg (mt hmem.1 hkey), List.map_append, h]
    simp [List.removeAll, hkey, List.eraseDups_cons]

theorem keys_foldl_addRow {rows : List Row} {keys : List RowKey} (more : List Row)
    (h : rows.map Row.key = keys.eraseDups) :
    (more.foldl addRow rows).map Row.key = (keys ++ more.map Row.key).eraseDups := by
  induction more generalizing rows keys with
  | nil => rw [List.map_nil, List.append_nil]; exact h
  | cons row more ih =>
      rw [List.foldl_cons, ih (keys_addRow row h), List.map_cons, List.append_assoc]
      rfl

theorem mem_foldl_addRow {rows more : List Row} {row : Row} (h : row ∈ more.foldl addRow rows) :
    row ∈ rows ∨ row ∈ more := by
  induction more generalizing rows with
  | nil => exact Or.inl h
  | cons next more ih =>
      rcases ih h with h | h
      · unfold addRow at h
        split at h
        · exact Or.inl h
        · rcases List.mem_append.1 h with h | h
          · exact Or.inl h
          · exact Or.inr (List.mem_cons.2 (Or.inl (List.mem_singleton.1 h)))
      · exact Or.inr (List.mem_cons_of_mem _ h)

theorem length_foldl_addRow (rows more : List Row) :
    (more.foldl addRow rows).length ≤ rows.length + more.length := by
  induction more generalizing rows with
  | nil => exact Nat.le_refl _
  | cons row more ih =>
      have hone : (addRow rows row).length ≤ rows.length + 1 := by
        unfold addRow
        split
        · omega
        · rw [List.length_append, List.length_singleton]
      have hrest := ih (addRow rows row)
      rw [List.foldl_cons, List.length_cons]
      omega

theorem Product.length_rows (name : String) (p : Product) : (p.rows name).length = p.size := by
  have hsum : ∀ (α : Type) (xs : List α) (n : Nat), (xs.map fun _ => n).sum = xs.length * n := by
    intro α xs n
    simp
  simp only [rows, size, List.length_flatMap, List.length_map, hsum]
  rw [Nat.mul_comm]

/-! ## The account -/

/-- The products are built or counted, each as a whole. -/
structure Account (name : String) (limit : Option Nat) (all : List Product) (r : Resolution)
    (built counted : List Product) : Prop where
  split : List.Perm (built ++ counted) all
  rows : r.rows.map Row.key = ((built.flatMap (Product.rows name)).map Row.key).eraseDups
  made : ∀ row ∈ r.rows, ∃ p ∈ built, row ∈ p.rows name
  omitted : r.omitted = (counted.map Product.size).sum
  within : ∀ l, limit = some l → r.rows.length ≤ l

/-- There is such an account. -/
def Accounted (name : String) (limit : Option Nat) (all : List Product) (r : Resolution) : Prop :=
  ∃ built counted, Account name limit all r built counted

variable {all : List Product} {r : Resolution}

/-- An account is of the rows and the number omitted only. -/
theorem Accounted.same {r' : Resolution} (h : Accounted name limit all r) (hrows : r'.rows = r.rows)
    (homitted : r'.omitted = r.omitted) : Accounted name limit all r' := by
  obtain ⟨built, counted, hsplit, hkeys, hmade, hcounted, hwithin⟩ := h
  exact ⟨built, counted, hsplit, hrows ▸ hkeys, hrows ▸ hmade, homitted.trans hcounted,
    hrows ▸ hwithin⟩

theorem Accounted.build (h : Accounted name limit all r) (p : Product) :
    Accounted name limit (all ++ [p]) (build name limit r p) := by
  obtain ⟨built, counted, hsplit, hrows, hmade, homitted, hwithin⟩ := h
  unfold Policy.build
  split
  · -- the product is counted
    refine ⟨built, counted ++ [p], ?_, hrows, hmade, ?_, hwithin⟩
    · rw [← List.append_assoc]
      exact hsplit.append_right [p]
    · simp [homitted]
  · -- the product is built
    rename_i hfits
    refine ⟨built ++ [p], counted, ?_, ?_, ?_, homitted, ?_⟩
    · have hmove : List.Perm (built ++ [p] ++ counted) (built ++ counted ++ [p]) := by
        rw [List.append_assoc, List.append_assoc]
        have hswap : List.Perm ([p] ++ counted) (counted ++ [p]) := List.perm_append_comm
        exact hswap.append_left built
      exact hmove.trans (hsplit.append_right [p])
    · rw [List.flatMap_append, List.map_append]
      simpa using keys_foldl_addRow (p.rows name) hrows
    · intro row hrow
      rcases mem_foldl_addRow hrow with hrow | hrow
      · obtain ⟨q, hq, hmem⟩ := hmade row hrow
        exact ⟨q, List.mem_append_left _ hq, hmem⟩
      · exact ⟨p, List.mem_append_right _ List.mem_cons_self, hrow⟩
    · rintro l rfl
      have hlength := length_foldl_addRow r.rows (p.rows name)
      rw [Product.length_rows] at hlength
      have hfits : ¬ l < r.rows.length + p.size := by simpa using hfits
      exact hlength.trans (Nat.le_of_not_lt hfits)

theorem Accounted.foldl_build (h : Accounted name limit all r) (made : List Product) :
    Accounted name limit (all ++ made) (made.foldl (Policy.build name limit) r) := by
  induction made generalizing all r with
  | nil => rwa [List.append_nil]
  | cons p made ih =>
      have hrest := ih (h.build p)
      rwa [List.append_assoc] at hrest

theorem Accounted.expandRule (h : Accounted rs.name limit all r) (rule : Rule × Action) :
    Accounted rs.name limit (all ++ ruleProducts lk rs rule) (expandRule lk rs limit r rule) := by
  unfold Policy.expandRule ruleProducts
  by_cases henabled : ¬ rule.1.enabled
  · rw [if_pos henabled, if_pos henabled, List.append_nil]
    exact h
  rw [if_neg henabled, if_neg henabled]
  cases issueOf lk (rs.scopes.any fun scope => scope.any lk.isUnknown) rule.1 with
  | some issue =>
      rw [List.append_nil]
      exact h.same rfl rfl
  | none =>
      have hbuilt := h.foldl_build (products lk (scopeSets lk rs.scopes) rule.1 rule.2)
      by_cases hnone : products lk (scopeSets lk rs.scopes) rule.1 rule.2 = []
      · simp only [hnone, if_true] at hbuilt ⊢
        exact hbuilt.same rfl rfl
      · simp only [hnone, if_false]
        exact hbuilt

/-- Every product of the rule set is built or counted. -/
theorem accounted_resolveRulesetWithin (lk : Lookups) (rs : RuleSet) (limit : Option Nat) :
    Accounted rs.name limit (expandedProducts lk rs) (resolveRulesetWithin lk rs limit) := by
  have hnone : Accounted rs.name limit [] ⟨[], 0, [], []⟩ :=
    ⟨[], [], .nil, rfl, fun _ h => absurd h List.not_mem_nil, rfl, fun _ _ => Nat.zero_le _⟩
  have hall : ∀ (rules : List (Rule × Action)) (all : List Product) (r : Resolution),
      Accounted rs.name limit all r → Accounted rs.name limit
        (all ++ rules.flatMap (ruleProducts lk rs)) (rules.foldl (expandRule lk rs limit) r) := by
    intro rules
    induction rules with
    | nil =>
        intro all r h
        rwa [List.flatMap_nil, List.append_nil]
    | cons rule rules ih =>
        intro all r h
        rw [List.flatMap_cons, ← List.append_assoc, List.foldl_cons]
        exact ih _ _ (h.expandRule rule)
  unfold expandedProducts resolveRulesetWithin
  split
  · exact hnone
  · exact hall rs.actions [] _ hnone

/-- Products come from the rules that are expanded, one for each scope where both sides have an
address. -/
theorem mem_expandedProducts : p ∈ expandedProducts lk rs ↔
    rs.enabled = true ∧ ∃ rule action, (rule, action) ∈ rs.actions ∧ rule.enabled = true ∧
      issueOf lk (rs.scopes.any fun scope => scope.any lk.isUnknown) rule = none ∧
      ∃ scopeIps ∈ scopeChoices (scopeSets lk rs.scopes),
        productIn lk rule action scopeIps = some p := by
  have hrule : ∀ rule : Rule × Action, p ∈ ruleProducts lk rs rule ↔ rule.1.enabled = true ∧
      issueOf lk (rs.scopes.any fun scope => scope.any lk.isUnknown) rule.1 = none ∧
      ∃ scopeIps ∈ scopeChoices (scopeSets lk rs.scopes),
        productIn lk rule.1 rule.2 scopeIps = some p := by
    intro rule
    unfold ruleProducts
    cases rule.1.enabled with
    | false => simp
    | true =>
        cases issueOf lk (rs.scopes.any fun scope => scope.any lk.isUnknown) rule.1 <;>
          simp [products, List.mem_filterMap]
  unfold expandedProducts
  cases rs.enabled with
  | false => simp
  | true =>
      simp only [not_true_eq_false, if_false, List.mem_flatMap, hrule, true_and]
      exact ⟨fun ⟨rule, h⟩ => ⟨rule.1, rule.2, h⟩, fun ⟨rule, action, h⟩ => ⟨(rule, action), h⟩⟩

theorem Product.mem_rows {row : Row} (h : row ∈ p.rows name) :
    row.ruleHref = p.ruleHref ∧ row.action = p.action ∧ row.srcIp ∈ p.srcs ∧ row.dstIp ∈ p.dsts ∧
      row.truncated = p.truncated := by
  obtain ⟨svc, -, h⟩ := List.mem_flatMap.1 h
  obtain ⟨src, hsrc, h⟩ := List.mem_flatMap.1 h
  obtain ⟨dst, hdst, rfl⟩ := List.mem_map.1 h
  exact ⟨rfl, rfl, hsrc, hdst, rfl⟩

end IllumioOps.Policy
