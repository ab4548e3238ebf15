import IllumioOps.Rules.Schedules
import IllumioOps.Text.Ipaddress

/-!
# Subtracting addresses

`_network`, `_minus` and `_subtract` of `domain.policy_resolver`: the texts of a list of addresses,
networks and ranges without the addresses of the excluded ones. A text `Denotes` the addresses of
its networks; what `subtract` leaves denotes what the values denote and the excludes do not
(`subtract_denotes`). An IP list is its ranges without its exclusions (`ipListValues`).
-/

set_option autoImplicit false

namespace IllumioOps.Policy

open Ipaddress Ranges

open RuleSchedules (strip)

/-! ## Texts as networks -/

-- Named, so that the definition that follows holds no proof of its own.
theorem v4_lt (n : Fin (2 ^ 32)) : n.val < 2 ^ 32 := n.isLt
theorem v6_lt (n : Fin (2 ^ 128)) : n.val < 2 ^ 128 := n.isLt

/-- `ipaddress.summarize_address_range`; it raises for a range that runs backwards and for ends of
two families. -/
def summarizeAddressRange : Address → Address → Option (List Network)
  | .v4 first, .v4 last =>
      if last < first then none
      else some ((Block.summarize 32 first last (v4_lt last)).map .v4)
  | .v6 first, .v6 last =>
      if last < first then none
      else some ((Block.summarize 128 first last (v6_lt last)).map .v6)
  | .v4 _, .v6 _ => none
  | .v6 _, .v4 _ => none

/-- The ends of a range `a-b`. -/
def rangeEnds (text : List Char) : Option (Address × Address) := do
  let first ← ipAddress (strip (text.takeWhile (· ≠ '-')))
  let last ← ipAddress (strip ((text.dropWhile (· ≠ '-')).drop 1))
  some (first, last)

/-- `_network`: an address, a network or a range `a-b`. -/
def network (value : String) : Option (List Network) :=
  let text := value.toList
  if '-' ∈ text then (rangeEnds text).bind fun (a, b) => summarizeAddressRange a b
  else (ipNetwork text).map fun n => [n]

/-! ## Networks without networks -/

/-- What of a network is left without `ex`: all of it, the blocks around `ex`, or nothing. -/
def without (ex : Network) : Network → List Network
  | .v4 n =>
      match ex with
      | .v4 ex => (Block.without ex n).map .v4
      | .v6 _ => [.v4 n]
  | .v6 n =>
      match ex with
      | .v4 _ => [.v6 n]
      | .v6 ex => (Block.without ex n).map .v6

/-- `_minus` -/
def minus (nets excluded : List Network) : List Network :=
  excluded.foldl (fun nets ex => nets.flatMap (without ex)) nets

/-- The text of what is left: of a single address, or of a network. -/
def restText (n : Network) : String :=
  String.ofList (if n.isHost then n.networkAddress.text else n.text)

/-- The single addresses that are excluded, and the wider networks. -/
structure Excluded where
  hosts : List Address
  wide : List Network

def excludedBy (excludes : List String) : Excluded :=
  let nets := excludes.flatMap fun e => (network e).getD []
  { hosts := ((nets.filter Network.isHost).map Network.networkAddress).eraseDups
    wide := nets.filter fun n => !n.isHost }

/-- What is left of the value `v` with the networks `nets`. A single address is looked up; a wider
value is cut, and keeps its own text where nothing of it is excluded. -/
def subtractNetworks (ex : Excluded) (v : String) (nets : List Network) : List String :=
  match nets.length == 1 && nets.all Network.isHost, nets.head? with
  | true, some n =>
      let addr := n.networkAddress
      if addr ∉ ex.hosts ∧ ∀ w ∈ ex.wide, ¬ w.Has addr then [v] else []
  | _, _ =>
      let inside := (ex.hosts.filter fun h => nets.any fun n => n.Has h).map Network.single
      let rest := minus nets (ex.wide ++ inside)
      if rest = nets then [v] else rest.map restText

/-- `_subtract` -/
def subtract (values excludes : List String) : List String :=
  if excludes = [] then values
  else
    let ex := excludedBy excludes
    if ex.hosts = [] ∧ ex.wide = [] then values.filter (· ∉ excludes)
    else
      values.flatMap fun v =>
        if v ∈ excludes then []
        else
          match network v with
          | none => [v]
          | some nets => subtractNetworks ex v nets

/-! ## What texts denote -/

/-- From the first address of a family to the last. -/
def Between : Address → Address → Address → Prop
  | .v4 first, .v4 last, .v4 n => first ≤ n ∧ n ≤ last
  | .v6 first, .v6 last, .v6 n => first ≤ n ∧ n ≤ last
  | _, _, _ => False

/-- The text is a range with the address between its ends, or an address or a network with the
address in it. -/
def Denotes (v : String) (a : Address) : Prop :=
  if '-' ∈ v.toList then ∃ ends, rangeEnds v.toList = some ends ∧ Between ends.1 ends.2 a
  else ∃ n, ipNetwork v.toList = some n ∧ n.Has a

/-- One of the texts denotes the address. -/
def DenotesAny (vs : List String) (a : Address) : Prop := ∃ v ∈ vs, Denotes v a

variable {a : Address} {n ex : Network} {nets excluded : List Network} {v : String}
  {vs values excludes : List String}

theorem has_summarizeAddressRange {first last : Address} :
    (∃ nets, summarizeAddressRange first last = some nets ∧ ∃ n ∈ nets, n.Has a) ↔
      Between first last a := by
  cases first <;> cases last <;> simp only [summarizeAddressRange]
  case v4.v6 | v6.v4 => simp [Between]
  all_goals
    rename_i first last
    by_cases hlt : last < first
    · -- a range that runs backwards has no address
      rw [if_pos hlt]
      rw [Fin.lt_def] at hlt
      cases a <;> simp only [Between, Fin.le_def, reduceCtorEq, false_and, exists_false, false_iff]
      omega
    · rw [if_neg hlt]
      simp only [Option.some.injEq, exists_eq_left', List.mem_map, exists_exists_and_eq_and]
      cases a with
      | _ n => simp only [Nat.reducePow, Network.Has, Block.mem_summarize, and_false, exists_false,
          Between, Fin.le_def]

/-- The networks of a text have the addresses that it denotes. -/
theorem denotes_iff : Denotes v a ↔ ∃ nets, network v = some nets ∧ ∃ n ∈ nets, n.Has a := by
  unfold Denotes network
  dsimp only
  split
  · cases rangeEnds v.toList with
    | none => simp
    | some ends => simp [has_summarizeAddressRange]
  · cases ipNetwork v.toList with
    | none => simp
    | some n => simp

instance (v : String) (a : Address) : Decidable (Denotes v a) :=
  decidable_of_iff (((network v).getD []).any fun n => n.Has a) <| by
    rw [denotes_iff]
    cases network v <;> simp

instance (vs : List String) (a : Address) : Decidable (DenotesAny vs a) :=
  inferInstanceAs (Decidable (∃ v ∈ vs, Denotes v a))

theorem has_single_iff {b : Address} : (Network.single b).Has a ↔ a = b := by
  cases a <;> cases b <;>
    simp [Network.single, Network.Has, Block.has_single_iff, Fin.ext_iff]

theorem single_networkAddress (h : n.isHost = true) : Network.single n.networkAddress = n := by
  obtain ⟨lead, free, hfree, hlead⟩ | ⟨lead, free, hfree, hlead⟩ := n
  all_goals
    obtain rfl : free = 0 := by simpa [Network.isHost] using h
    simp [Network.single, Network.networkAddress, Block.single, Block.first]

theorem has_without : (∃ d ∈ without ex n, d.Has a) ↔ n.Has a ∧ ¬ ex.Has a := by
  cases n <;> cases ex <;> cases a <;>
    simp [without, Network.Has, Block.mem_without]

theorem has_minus : (∃ d ∈ minus nets excluded, d.Has a) ↔
    (∃ n ∈ nets, n.Has a) ∧ ∀ ex ∈ excluded, ¬ ex.Has a := by
  induction excluded generalizing nets with
  | nil => simp [minus]
  | cons ex excluded ih =>
      have hone : (∃ d ∈ nets.flatMap (without ex), d.Has a) ↔
          (∃ n ∈ nets, n.Has a) ∧ ¬ ex.Has a := by
        constructor
        · rintro ⟨d, hd, ha⟩
          obtain ⟨n, hn, hd⟩ := List.mem_flatMap.1 hd
          have hleft := has_without.1 ⟨d, hd, ha⟩
          exact ⟨⟨n, hn, hleft.1⟩, hleft.2⟩
        · rintro ⟨⟨n, hn, ha⟩, hex⟩
          obtain ⟨d, hd, ha⟩ := has_without.2 ⟨ha, hex⟩
          exact ⟨d, List.mem_flatMap.2 ⟨n, hn, hd⟩, ha⟩
      rw [minus, List.foldl_cons]
      change (∃ d ∈ minus (nets.flatMap (without ex)) excluded, d.Has a) ↔ _
      rw [ih, hone, List.forall_mem_cons, and_assoc]

/-! ## What is written -/

theorem network_restText (n : Network) : network (restText n) = some [n] := by
  unfold network restText
  by_cases hhost : n.isHost = true
  · simp only [hhost, if_true, String.toList_ofList, Network.dash_not_mem_address, if_false,
      Network.ipNetwork_address, Option.map_some, single_networkAddress hhost]
  · simp only [hhost, if_false, String.toList_ofList, Network.dash_not_mem_text,
      Network.ipNetwork_text, Option.map_some, Bool.false_eq_true]

theorem denotes_restText : Denotes (restText n) a ↔ n.Has a := by
  simp [denotes_iff, network_restText]

theorem denotesAny_map_restText : DenotesAny (nets.map restText) a ↔ ∃ n ∈ nets, n.Has a := by
  simp [DenotesAny, denotes_restText]

/-! ## What is excluded -/

/-- A network of one address has no other. -/
theorem has_iff_of_isHost (h : n.isHost = true) : n.Has a ↔ a = n.networkAddress := by
  rw [← has_single_iff, single_networkAddress h]

/-- The addresses that the excludes denote are the single ones and those of the wider networks. -/
theorem denotesAny_excludes : DenotesAny excludes a ↔
    a ∈ (excludedBy excludes).hosts ∨ ∃ w ∈ (excludedBy excludes).wide, w.Has a := by
  have hnets : DenotesAny excludes a ↔
      ∃ n ∈ excludes.flatMap fun e => (network e).getD [], n.Has a := by
    constructor
    · rintro ⟨e, he, hden⟩
      obtain ⟨nets, hnets, n, hn, ha⟩ := denotes_iff.1 hden
      exact ⟨n, List.mem_flatMap.2 ⟨e, he, by rw [hnets]; exact hn⟩, ha⟩
    · rintro ⟨n, hn, ha⟩
      obtain ⟨e, he, hn⟩ := List.mem_flatMap.1 hn
      cases hnetwork : network e with
      | none => exact absurd (hnetwork ▸ hn) List.not_mem_nil
      | some nets => exact ⟨e, he, denotes_iff.2 ⟨nets, hnetwork, n, by rwa [hnetwork] at hn, ha⟩⟩
  rw [hnets]
  unfold excludedBy
  simp only [List.mem_eraseDups, List.mem_map, List.mem_filter, Bool.not_eq_true']
  constructor
  · rintro ⟨n, hn, ha⟩
    cases hhost : n.isHost with
    | true => exact Or.inl ⟨n, ⟨hn, hhost⟩, ((has_iff_of_isHost hhost).1 ha).symm⟩
    | false => exact Or.inr ⟨n, ⟨hn, hhost⟩, ha⟩
  · rintro (⟨n, ⟨hn, hhost⟩, rfl⟩ | ⟨n, ⟨hn, -⟩, ha⟩)
    · exact ⟨n, hn, (has_iff_of_isHost hhost).2 rfl⟩
    · exact ⟨n, hn, ha⟩

/-! ## What is left -/

theorem denotesAny_singleton (h : network v = some nets) :
    DenotesAny [v] a ↔ ∃ n ∈ nets, n.Has a := by
  simp [DenotesAny, denotes_iff, h]

theorem denotesAny_subtractNetworks (ex : Excluded) (h : network v = some nets) :
    DenotesAny (subtractNetworks ex v nets) a ↔
      (∃ n ∈ nets, n.Has a) ∧ a ∉ ex.hosts ∧ ∀ w ∈ ex.wide, ¬ w.Has a := by
  unfold subtractNetworks
  split
  · -- a single address
    rename_i n hone hhead
    rw [Bool.and_eq_true, beq_iff_eq] at hone
    obtain rfl : nets = [n] := by
      obtain ⟨n', rfl⟩ := List.length_eq_one_iff.1 hone.1
      rw [Option.some.inj hhead]
    have hhost : n.isHost = true := by simpa using hone.2
    dsimp only
    split
    · rename_i hkept
      rw [denotesAny_singleton h]
      simp only [List.mem_singleton, exists_eq_left, has_iff_of_isHost hhost]
      constructor
      · rintro rfl
        exact ⟨rfl, hkept⟩
      · exact fun hleft => hleft.1
    · rename_i hgone
      simp only [DenotesAny, List.not_mem_nil, false_and, exists_false, List.mem_singleton,
        exists_eq_left, has_iff_of_isHost hhost, false_iff]
      rintro ⟨rfl, hkept⟩
      exact hgone hkept
  · -- a wider value
    have hrest : (∃ d ∈ minus nets (ex.wide ++
          (ex.hosts.filter fun h => nets.any fun n => n.Has h).map Network.single), d.Has a) ↔
        (∃ n ∈ nets, n.Has a) ∧ a ∉ ex.hosts ∧ ∀ w ∈ ex.wide, ¬ w.Has a := by
      rw [has_minus]
      refine and_congr_right fun ⟨n, hn, ha⟩ => ?_
      constructor
      · intro hnone
        refine ⟨fun hhost => ?_, fun w hw => hnone w (List.mem_append_left _ hw)⟩
        refine hnone (Network.single a) (List.mem_append_right _ (List.mem_map_of_mem ?_))
          (has_single_iff.2 rfl)
        exact List.mem_filter.2 ⟨hhost, List.any_eq_true.2 ⟨n, hn, by simpa using ha⟩⟩
      · rintro ⟨hhosts, hwide⟩ w hw
        rcases List.mem_append.1 hw with hw | hw
        · exact hwide w hw
        · obtain ⟨b, hb, rfl⟩ := List.mem_map.1 hw
          rw [has_single_iff]
          rintro rfl
          exact hhosts (List.mem_filter.1 hb).1
    dsimp only
    split
    · rename_i hsame
      rw [hsame] at hrest
      rw [denotesAny_singleton h]
      exact hrest
    · rw [denotesAny_map_restText, hrest]

/-- What is left of addresses are addresses. -/
theorem network_of_mem_subtractNetworks {ex : Excluded} {w : String} (h : network v = some nets)
    (hw : w ∈ subtractNetworks ex v nets) : ∃ nets', network w = some nets' := by
  have hkept : ∀ ws : List String, (ws = [v] ∨ ws = [] ∨ ∃ ns : List Network, ws = ns.map restText) →
      w ∈ ws → ∃ nets', network w = some nets' := by
    rintro ws (rfl | rfl | ⟨ns, rfl⟩) hmem
    · exact ⟨nets, List.mem_singleton.1 hmem ▸ h⟩
    · exact absurd hmem List.not_mem_nil
    · obtain ⟨n, -, rfl⟩ := List.mem_map.1 hmem
      exact ⟨[n], network_restText n⟩
  refine hkept _ ?_ hw
  unfold subtractNetworks
  split
  · dsimp only
    split
    · exact Or.inl rfl
    · exact Or.inr (Or.inl rfl)
  · dsimp only
    split
    · exact Or.inl rfl
    · exact Or.inr (Or.inr ⟨_, rfl⟩)

/-- What is left denotes what the values denote and the excludes do not. -/
theorem denotesAny_subtract (values excludes : List String) (a : Address) :
    DenotesAny (subtract values excludes) a ↔ DenotesAny values a ∧ ¬ DenotesAny excludes a := by
  unfold subtract
  by_cases hnil : excludes = []
  · subst hnil
    simp [DenotesAny]
  rw [if_neg hnil]
  have hexcludes := @denotesAny_excludes a excludes
  dsimp only
  split
  · -- no exclude is an address
    rename_i hnone
    rw [hnone.1, hnone.2] at hexcludes
    have hno : ¬ DenotesAny excludes a := by simp [hexcludes]
    constructor
    · rintro ⟨v, hv, hden⟩
      exact ⟨⟨v, (List.mem_filter.1 hv).1, hden⟩, hno⟩
    · rintro ⟨⟨v, hv, hden⟩, -⟩
      refine ⟨v, List.mem_filter.2 ⟨hv, ?_⟩, hden⟩
      simpa using fun hmem => hno ⟨v, hmem, hden⟩
  · have hone : ∀ v nets, network v = some nets →
        (DenotesAny (subtractNetworks (excludedBy excludes) v nets) a ↔
          (∃ n ∈ nets, n.Has a) ∧ ¬ DenotesAny excludes a) := by
      intro v nets hnets
      rw [denotesAny_subtractNetworks _ hnets, hexcludes, not_or, not_exists]
      simp only [not_and]
    constructor
    · rintro ⟨w, hw, hden⟩
      obtain ⟨v, hv, hw⟩ := List.mem_flatMap.1 hw
      split at hw
      · exact absurd hw List.not_mem_nil
      split at hw
      · rename_i hnone
        obtain ⟨nets, hnets, -⟩ := denotes_iff.1 hden
        rw [List.mem_singleton.1 hw, hnone] at hnets
        cases hnets
      · rename_i nets hnets
        obtain ⟨hvalue, hno⟩ := (hone v nets hnets).1 ⟨w, hw, hden⟩
        exact ⟨⟨v, hv, denotes_iff.2 ⟨nets, hnets, hvalue⟩⟩, hno⟩
    · rintro ⟨⟨v, hv, hvalue⟩, hno⟩
      obtain ⟨nets, hnets, hhas⟩ := denotes_iff.1 hvalue
      obtain ⟨w, hw, hden⟩ := (hone v nets hnets).2 ⟨hhas, hno⟩
      refine ⟨w, List.mem_flatMap.2 ⟨v, hv, ?_⟩, hden⟩
      rw [if_neg fun hmem => hno ⟨v, hmem, hvalue⟩, hnets]
      exact hw

/-- A value that is not an address is removed by an identical exclude only. -/
theorem mem_subtract_of_none (h : network v = none) :
    v ∈ subtract values excludes ↔ v ∈ values ∧ v ∉ excludes := by
  unfold subtract
  by_cases hnil : excludes = []
  · simp [hnil]
  rw [if_neg hnil]
  dsimp only
  split
  · simp [List.mem_filter]
  · rw [List.mem_flatMap]
    constructor
    · rintro ⟨w, hw, hv⟩
      split at hv
      · exact absurd hv List.not_mem_nil
      · rename_i hkept
        split at hv
        · obtain rfl := List.mem_singleton.1 hv
          exact ⟨hw, hkept⟩
        · rename_i nets hnets
          obtain ⟨nets', hnets'⟩ := network_of_mem_subtractNetworks hnets hv
          rw [h] at hnets'
          cases hnets'
    · rintro ⟨hv, hkept⟩
      refine ⟨v, hv, ?_⟩
      rw [if_neg hkept, h]
      exact List.mem_singleton_self v

/-- The addresses of a text are of one family. -/
theorem denotes_one_family {n : Fin (2 ^ 32)} {m : Fin (2 ^ 128)} (h : Denotes v (.v4 n)) :
    ¬ Denotes v (.v6 m) := by
  unfold Denotes at h ⊢
  split at h
  · rename_i hdash
    rw [if_pos hdash]
    rintro ⟨ends', hends', hm⟩
    obtain ⟨⟨first, last⟩, hends, hn⟩ := h
    obtain rfl := Option.some.inj (hends.symm.trans hends')
    cases first <;> cases last <;> first | exact hn | exact hm
  · rename_i hdash
    rw [if_neg hdash]
    rintro ⟨p', hp', hm⟩
    obtain ⟨p, hp, hn⟩ := h
    obtain rfl := Option.some.inj (hp.symm.trans hp')
    cases p
    · exact hm
    · exact hn

/-- `_subtract` takes away exactly the excluded addresses, of each family those of that family, and
of the texts that are not addresses the identical ones. -/
theorem subtract_exact (values excludes : List String) :
    (∀ a, DenotesAny (subtract values excludes) a ↔
      DenotesAny values a ∧ ¬ DenotesAny excludes a) ∧
    (∀ v n m, Denotes v (.v4 n) → ¬ Denotes v (.v6 m)) ∧
    ∀ v, network v = none → (v ∈ subtract values excludes ↔ v ∈ values ∧ v ∉ excludes) :=
  ⟨denotesAny_subtract values excludes, fun _ _ _ => denotes_one_family,
    fun _ => mem_subtract_of_none⟩

/-! ## The characters of a text -/

theorem mem_strip {c : Char} {text : List Char} (h : c ∈ text) :
    c ∈ strip text ∨ RuleSchedules.isSpace c = true := by
  have hdrop : ∀ cs : List Char, c ∈ cs →
      c ∈ cs.dropWhile RuleSchedules.isSpace ∨ RuleSchedules.isSpace c = true := by
    intro cs hcs
    rw [← List.takeWhile_append_dropWhile (p := RuleSchedules.isSpace) (l := cs),
      List.mem_append] at hcs
    exact hcs.symm.imp_right fun hspace => List.all_eq_true.1 List.all_takeWhile c hspace
  rcases hdrop text h with h | h
  · rcases hdrop _ (List.mem_reverse.2 h) with h | h
    · exact Or.inl (List.mem_reverse.2 h)
    · exact Or.inr h
  · exact Or.inr h

/-- Beside the characters of addresses and networks there is a dash at most, and white space. -/
theorem isPlain_of_network (h : network v = some nets) {c : Char} (hc : c ∈ v.toList) :
    IsPlain c ∨ c = '-' ∨ RuleSchedules.isSpace c = true := by
  unfold network at h
  dsimp only at h
  split at h
  · rename_i hdash
    obtain ⟨⟨first, last⟩, hends, -⟩ := Option.bind_eq_some_iff.1 h
    obtain ⟨a, ha, hends⟩ := Option.bind_eq_some_iff.1 hends
    obtain ⟨b, hb, -⟩ := Option.bind_eq_some_iff.1 hends
    rw [← List.takeWhile_append_dropWhile (p := (· ≠ '-')) (l := v.toList), List.mem_append] at hc
    rcases hc with hc | hc
    · rcases mem_strip hc with hc | hc
      · exact Or.inl (isPlain_of_ipAddress ha c hc)
      · exact Or.inr (Or.inr hc)
    · generalize hrest : v.toList.dropWhile (· ≠ '-') = rest at hb hc
      cases rest with
      | nil => exact absurd hc List.not_mem_nil
      | cons dash rest =>
          rcases List.mem_cons.1 hc with rfl | hc
          · have hhead := List.head?_dropWhile_not (· ≠ '-') v.toList
            rw [hrest] at hhead
            exact Or.inr (Or.inl (by simpa using hhead))
          · rcases mem_strip hc with hc | hc
            · exact Or.inl (isPlain_of_ipAddress hb c hc)
            · exact Or.inr (Or.inr hc)
  · obtain ⟨n, hn, -⟩ := Option.map_eq_some_iff.1 h
    exact Or.inl (isPlain_of_ipNetwork hn c hc)

/-! ## IP lists -/

/-- An entry of an IP list; an empty text stands for a bound that is missing. -/
structure IpRange where
  fromIp : String
  toIp : String
  exclusion : Bool
  deriving DecidableEq, Repr

/-- The text of an entry, where it has one. -/
def IpRange.value (r : IpRange) : Option String :=
  if r.fromIp ≠ "" ∧ r.toIp ≠ "" then some (r.fromIp ++ "-" ++ r.toIp)
  else if r.fromIp ≠ "" then some r.fromIp
  else none

/-- `_ip_list_values` -/
def ipListValues (ranges : List IpRange) : List String :=
  let inc := (ranges.filter fun r => !r.exclusion).filterMap IpRange.value
  let exc := (ranges.filter IpRange.exclusion).filterMap IpRange.value
  subtract inc exc

end IllumioOps.Policy
