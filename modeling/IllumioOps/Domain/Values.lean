import IllumioOps.Sql.Expression

/-!
# Value domains shared by the whole product

A time is an `Int`: microseconds since the epoch, as a Python `datetime` counts.
The store keeps milliseconds in a fixed-width text, so text order is time order
(`dbTime`); the PCE takes whole seconds (`pceTime`). A day is an `Int` too, the
number of the UTC day. What the program takes from outside is a parameter: the
full Unicode `str.lower()` (`Unicode`) and the network tests of the `ipaddress`
package (`Addresses`).
-/

set_option autoImplicit false

namespace IllumioOps

open IllumioOps.Sql (asciiLower)

/-! ## Time -/

def milliseconds (n : Int) : Int := n * 1000
def seconds (n : Int) : Int := milliseconds (n * 1000)
def minutes (n : Int) : Int := seconds (n * 60)
def hours (n : Int) : Int := minutes (n * 60)
def days (n : Int) : Int := hours (n * 24)

/-- `db_time` / `store_time`: a time as the store writes it. -/
def dbTime (t : Int) : Int := t / milliseconds 1 * milliseconds 1

/-- `pce_time`: a time as a PCE query carries it. -/
def pceTime (t : Int) : Int := t / seconds 1 * seconds 1

/-- `db_day`, and `substr(stamp, 1, 10)` of a stored time. -/
def dbDay (t : Int) : Int := t / days 1

/-- Midnight at the start of a day. -/
def dayStart (d : Int) : Int := d * days 1

/-- The start of the hour a time lies in. -/
def hourStart (t : Int) : Int := t / hours 1 * hours 1

theorem pceTime_le (t : Int) : pceTime t ≤ t := by
  simp only [pceTime, seconds, milliseconds]
  omega

theorem dbTime_le (t : Int) : dbTime t ≤ t := by
  simp only [dbTime, milliseconds]
  omega

theorem dbTime_mono {s t : Int} (h : s ≤ t) : dbTime s ≤ dbTime t := by
  simp only [dbTime, milliseconds]
  omega

@[simp] theorem dbTime_dbTime (t : Int) : dbTime (dbTime t) = dbTime t := by
  simp only [dbTime, milliseconds]
  omega

/-- A time of whole milliseconds is stored as it is. -/
theorem dbTime_of_dvd {t : Int} (h : t % milliseconds 1 = 0) : dbTime t = t := by
  simp only [dbTime, milliseconds] at h ⊢
  omega

theorem dbDay_eq_iff (t : Int) (d : Int) :
    dbDay t = d ↔ dayStart d ≤ t ∧ t < dayStart (d + 1) := by
  simp only [dbDay, dayStart, days, hours, minutes, seconds, milliseconds]
  omega

theorem dbDay_mono {s t : Int} (h : s ≤ t) : dbDay s ≤ dbDay t := by
  simp only [dbDay, days, hours, minutes, seconds, milliseconds]
  omega

/-! ## Vocabularies -/

inductive PolicyDecision where
  | allowed
  | potentiallyBlocked
  | blocked
  | unknown
  deriving DecidableEq, Repr

def PolicyDecision.value : PolicyDecision → String
  | .allowed => "allowed"
  | .potentiallyBlocked => "potentially_blocked"
  | .blocked => "blocked"
  | .unknown => "unknown"

/-- Which VEN reported the flow: outbound is the initiating side. -/
inductive FlowDirection where
  | inbound
  | outbound
  deriving DecidableEq, Repr

def FlowDirection.value : FlowDirection → String
  | .inbound => "inbound"
  | .outbound => "outbound"

inductive DataOrigin where
  | ingest
  | backfill
  deriving DecidableEq, Repr

def DataOrigin.value : DataOrigin → String
  | .ingest => "ingest"
  | .backfill => "backfill"

inductive Transmission where
  | unicast
  | broadcast
  | multicast
  deriving DecidableEq, Repr

def Transmission.value : Transmission → String
  | .unicast => "unicast"
  | .broadcast => "broadcast"
  | .multicast => "multicast"

/-- Two spellings of a transmission differ in more than ASCII case. -/
@[simp] theorem Transmission.asciiLower_value (t : Transmission) :
    asciiLower t.value = t.value := by
  cases t <;> decide

/-! ## Names -/

/-- A domain account: `DOMAIN\acct` or `acct@domain`. -/
def qualified (name : String) : Bool := '\\' ∈ name.toList || '@' ∈ name.toList

theorem toLower_of_not_upper {c : Char} (h : ¬ c.isUpper = true) : c.toLower = c := by
  delta Char.isUpper at h
  delta Char.toLower
  rw [decide_eq_true_eq] at h
  exact dif_neg h
theorem isUpper_toLower (c : Char) : c.toLower.isUpper = false := by
  delta Char.isUpper Char.toLower
  split <;> grind [UInt32.toNat_add, Char.toNat_val]
theorem isLower_toLower {c : Char} (h : c.isUpper = true) : c.toLower.isLower = true := by
  delta Char.isUpper at h
  delta Char.toLower Char.isLower
  rw [decide_eq_true_eq] at h
  rw [dif_pos h]
  simp only [ge_iff_le, UInt32.le_iff_toNat_le, Bool.and_eq_true,
    decide_eq_true_eq, UInt32.toNat_add] at h ⊢
  simp at h ⊢
  omega
/-- Lower-casing neither makes nor removes a character that is no ASCII letter. -/
theorem toLower_eq_iff {c d : Char} (hd : d.isAlpha = false) : c.toLower = d ↔ c = d := by
  constructor
  · intro h
    by_cases hc : c.isUpper = true
    · have hlower := isLower_toLower hc
      rw [h] at hlower
      delta Char.isAlpha at hd
      simp [hlower] at hd
    · rwa [toLower_of_not_upper hc] at h
  · rintro rfl
    refine toLower_of_not_upper fun h => ?_
    delta Char.isAlpha at hd
    simp [h] at hd

theorem asciiLower_asciiLower (s : String) : asciiLower (asciiLower s) = asciiLower s := by
  refine String.toList_injective ?_
  rw [Sql.asciiLower_toList, Sql.asciiLower_toList, List.map_map]
  exact List.map_congr_left fun c _ =>
    toLower_of_not_upper (by rw [isUpper_toLower]; exact Bool.false_ne_true)

theorem qualified_asciiLower (s : String) : qualified (asciiLower s) = qualified s := by
  have hmem : ∀ d : Char, d.isAlpha = false →
      (d ∈ (asciiLower s).toList ↔ d ∈ s.toList) := by
    intro d hd
    rw [Sql.asciiLower_toList, List.mem_map]
    exact ⟨fun ⟨c, hc, h⟩ => (toLower_eq_iff hd).1 h ▸ hc,
      fun h => ⟨d, h, (toLower_eq_iff hd).2 rfl⟩⟩
  unfold qualified
  rw [decide_eq_decide.2 (hmem '\\' (by decide)), decide_eq_decide.2 (hmem '@' (by decide))]

/-- The full Unicode lower-casing of a text. It lower-cases ASCII letters among
others, changes nothing the second time, and neither makes nor removes the
characters that qualify an account. -/
structure Unicode where
  lower : String → String
  lower_asciiLower : ∀ s, lower (asciiLower s) = lower s
  lower_lower : ∀ s, lower (lower s) = lower s
  qualified_lower : ∀ s, qualified (lower s) = qualified s

/-- Lower-casing on texts without letters beyond ASCII. -/
def Unicode.ascii : Unicode where
  lower := asciiLower
  lower_asciiLower := asciiLower_asciiLower
  lower_lower := asciiLower_asciiLower
  qualified_lower := qualified_asciiLower

/-- Domain accounts are case-insensitive, local accounts are not. -/
def Unicode.userKey (u : Unicode) (name : String) : String :=
  if qualified name then u.lower name else name

/-- How an account is grouped in the baselines. -/
def Unicode.accountKey (u : Unicode) : Option String → Option String
  | none => none
  | some user => if user = "" then none else some (u.userKey user)

def systemAccounts : List String :=
  ["nt authority\\system", "nt authority\\local service", "nt authority\\network service",
    "system", "root", "daemon", "nobody"]

def systemPrefixes : List String := ["systemd-", "_"]

/-- The NT AUTHORITY principals, or a local account that is a system one by name. -/
def Unicode.isSystemAccount (u : Unicode) : Option String → Bool
  | none => false
  | some user =>
      if user = "" then false
      else
        let low := u.lower user
        if low ∈ systemAccounts then true
        else if qualified low then false
        else systemPrefixes.any fun p => p.toList.isPrefixOf low.toList

/-- A workload by its href, a bare address as `ip:<address>`. -/
def endpointKey (href : Option String) (ip : String) : String :=
  match href with
  | none => "ip:" ++ ip
  | some h => if h = "" then "ip:" ++ ip else h

/-! ## Addresses -/

/-- The tests on texts that name addresses and networks. -/
structure Addresses where
  ipInNet : String → String → Bool
  isPublic : String → Bool

/-- No address is public and no network holds any. -/
def noAddresses : Addresses := { ipInNet := fun _ _ => false, isPublic := fun _ => false }

/-- A public address no workload holds. -/
def Addresses.outside (a : Addresses) (ip : String) (href : Option String) : Bool :=
  (href.getD "" = "") && a.isPublic ip

end IllumioOps
