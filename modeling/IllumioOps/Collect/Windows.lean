import IllumioOps.Domain.Values
import IllumioOps.Ranges.Tiles
import Mathlib.Order.Lattice

/-!
# Windows of a query

`services.collect.windows`: a window whose answer was capped is halved until it fits, is a minute long or
was reached by twelve halvings; a long period is cut into hours. What is kept is the answers of the windows
that are not halved, and these tile the window that was asked for (`harvest_complete`).
-/

set_option autoImplicit false

namespace IllumioOps.CollectWindows

open Ranges (Tiles)

variable {R ε : Type}

def minWindow : Int := seconds 60
def maxDepth : Nat := 12
def slice : Int := hours 1

structure WindowHarvest (R : Type) where
  rows : List R
  windows : Nat
  truncated : List (Int × Int × Nat)

/-- `timedelta / 2`: to the nearest microsecond, to an even one from a half. -/
def half (d : Int) : Int := if d % 2 = 0 ∨ d / 2 % 2 = 0 then d / 2 else d / 2 + 1

/-- The middle of a window. -/
def middle (a b : Int) : Int := a + half (b - a)

/-- `fetch` gives the rows of a window and whether they were capped, or raises. -/
abbrev Fetch (R ε : Type) : Type := Int → Int → Except ε (List R × Bool)

/-- `walk` of `harvest`. -/
def walk (fetch : Fetch R ε) (a b : Int) (depth : Nat) (out : WindowHarvest R) :
    Except ε (WindowHarvest R) :=
  match fetch a b with
  | .error e => .error e
  | .ok (rows, capped) =>
      if capped = false then
        .ok { out with rows := out.rows ++ rows, windows := out.windows + 1 }
      else if _h : maxDepth ≤ depth ∨ b - a ≤ minWindow then
        .ok ⟨out.rows ++ rows, out.windows + 1, out.truncated ++ [(a, b, rows.length)]⟩
      else
        match walk fetch a (middle a b) (depth + 1) { out with windows := out.windows + 1 } with
        | .error e => .error e
        | .ok out => walk fetch (middle a b) b (depth + 1) out
termination_by maxDepth - depth

def harvest (fetch : Fetch R ε) (start stop : Int) : Except ε (WindowHarvest R) :=
  walk fetch start stop 0 ⟨[], 0, []⟩

/-- `slices`, from where it is. -/
def slices (cur stop : Int) : List (Int × Int) :=
  if cur < stop then (cur, min (cur + slice) stop) :: slices (cur + slice) stop else []
termination_by (stop - cur).toNat
decreasing_by simp only [slice, hours, minutes, seconds, milliseconds]; omega

/-! ## What is kept -/

/-- A window that halving a window that many times comes to. -/
inductive Halved (a b : Int) : Nat → Int → Int → Prop
  | start : Halved a b 0 a b
  | left {n : Nat} {x y : Int} (h : Halved a b n x y) : Halved a b (n + 1) x (middle x y)
  | right {n : Nat} {x y : Int} (h : Halved a b n x y) : Halved a b (n + 1) (middle x y) y

def rowsOf (fetch : Fetch R ε) (w : Int × Int) : List R :=
  match fetch w.1 w.2 with
  | .ok (rows, _) => rows
  | .error _ => []

/-- What is reported of a kept window: that its rows were capped. -/
def cappedOf (fetch : Fetch R ε) (w : Int × Int) : Option (Int × Int × Nat) :=
  match fetch w.1 w.2 with
  | .ok (rows, true) => some (w.1, w.2, rows.length)
  | _ => none

/-- These windows are kept of a window that some halvings came to: they tile it, all were fetched, and a
capped one could not be halved. -/
structure Kept (fetch : Fetch R ε) (start stop a b : Int) (ws : List (Int × Int)) : Prop where
  tiles : Tiles a b ws
  fetched : ∀ w ∈ ws, ∃ answer, fetch w.1 w.2 = .ok answer
  limit : ∀ w ∈ ws, (cappedOf fetch w).isSome →
    w.2 - w.1 ≤ minWindow ∨ Halved start stop maxDepth w.1 w.2

theorem Kept.append {fetch : Fetch R ε} {start stop a m b : Int} {ws vs : List (Int × Int)}
    (h : Kept fetch start stop a m ws) (h' : Kept fetch start stop m b vs) :
    Kept fetch start stop a b (ws ++ vs) where
  tiles := h.tiles.append h'.tiles
  fetched w hw := (List.mem_append.1 hw).elim (h.fetched w) (h'.fetched w)
  limit w hw := (List.mem_append.1 hw).elim (h.limit w) (h'.limit w)

/-- A window of more than a minute has a middle. -/
theorem middle_between {a b : Int} (h : ¬ b - a ≤ minWindow) : a < middle a b ∧ middle a b < b := by
  simp only [minWindow, seconds, milliseconds] at h
  simp only [middle, half]
  split <;> omega

/-- What a walk adds is of the windows it keeps. -/
theorem walk_spec (fetch : Fetch R ε) (start stop : Int) {a b : Int} {depth : Nat}
    {out out' : WindowHarvest R} (hab : a < b) (hdepth : depth ≤ maxDepth)
    (hhalved : Halved start stop depth a b) (h : walk fetch a b depth out = .ok out') :
    ∃ ws, Kept fetch start stop a b ws ∧ out'.rows = out.rows ++ ws.flatMap (rowsOf fetch) ∧
      out'.truncated = out.truncated ++ ws.filterMap (cappedOf fetch) := by
  fun_induction walk fetch a b depth out generalizing out' with
  | case1 => cases h
  | case2 a b depth out rows hfetch =>
    obtain rfl := Except.ok.inj h
    refine ⟨[(a, b)], ⟨.last hab, ?_, ?_⟩, ?_, ?_⟩ <;> simp [hfetch, rowsOf, cappedOf]
  | case3 a b depth out rows capped hfetch hcapped hlimit =>
    -- The window is kept although it is capped: it is short, or no halving is left.
    obtain rfl := Except.ok.inj h
    obtain rfl : capped = true := by simpa using hcapped
    refine ⟨[(a, b)], ⟨.last hab, ?_, ?_⟩, ?_, ?_⟩
    · simp [hfetch]
    · intro w hw _
      obtain rfl := List.mem_singleton.1 hw
      rcases hlimit with hmax | hmin
      · rw [le_antisymm hdepth hmax] at hhalved
        exact Or.inr hhalved
      · exact Or.inl hmin
    · simp [hfetch, rowsOf]
    · simp [hfetch, cappedOf]
  | case4 => cases h
  | case5 a b depth out rows capped hfetch hcapped hlimit outl hleft ihleft ihright =>
    rw [not_or, not_le] at hlimit
    obtain ⟨hlo, hhi⟩ := middle_between hlimit.2
    obtain ⟨ws, hws, hrows, htrunc⟩ := ihleft hlo hlimit.1 hhalved.left hleft
    obtain ⟨vs, hvs, hrows', htrunc'⟩ := ihright hhi hlimit.1 hhalved.right h
    refine ⟨ws ++ vs, hws.append hvs, ?_, ?_⟩
    · rw [hrows', hrows, List.flatMap_append, List.append_assoc]
    · rw [htrunc', htrunc, List.filterMap_append, List.append_assoc]

/-- If no answer is an error, a walk returns. -/
theorem walk_returns {fetch : Fetch R ε} (hfetch : ∀ a b, ∃ answer, fetch a b = .ok answer) (a b : Int)
    (depth : Nat) (out : WindowHarvest R) : ∃ out', walk fetch a b depth out = .ok out' := by
  fun_induction walk fetch a b depth out with
  | case1 a b depth out e he =>
    obtain ⟨answer, hok⟩ := hfetch a b
    rw [hok] at he
    cases he
  | case2 => exact ⟨_, rfl⟩
  | case3 => exact ⟨_, rfl⟩
  | case4 a b depth out rows capped _ _ _ e he ih =>
    obtain ⟨outl, hok⟩ := ih
    rw [hok] at he
    cases he
  | case5 a b depth out rows capped _ _ _ outl hleft _ ihright => exact ihright

/-! ## The answer of a window -/

/-- A record of the period is among the rows of a kept window, or that window is reported. -/
theorem Kept.mem_rows {fetch : Fetch R ε} {start stop : Int} {ws : List (Int × Int)}
    (h : Kept fetch start stop start stop ws) {time : R → Int} {r : R}
    (hfetch : ∀ a b rows, fetch a b = .ok (rows, false) → a ≤ time r → time r ≤ b → r ∈ rows)
    (hstart : start ≤ time r) (hstop : time r ≤ stop) :
    r ∈ ws.flatMap (rowsOf fetch) ∨
      ∃ t ∈ ws.filterMap (cappedOf fetch), t.1 ≤ time r ∧ time r ≤ t.2.1 := by
  obtain ⟨w, hw, hlo, hhi⟩ := h.tiles.exists_mem hstart hstop
  obtain ⟨⟨rows, capped⟩, hanswer⟩ := h.fetched w hw
  cases capped with
  | false =>
    refine Or.inl (List.mem_flatMap.2 ⟨w, hw, ?_⟩)
    simp only [rowsOf, hanswer]
    exact hfetch _ _ _ hanswer hlo hhi
  | true =>
    refine Or.inr ⟨(w.1, w.2, rows.length), List.mem_filterMap.2 ⟨w, hw, ?_⟩, hlo, hhi⟩
    simp only [cappedOf, hanswer]

theorem tiles_slices {start stop : Int} (h : start < stop) : Tiles start stop (slices start stop) := by
  fun_induction slices start stop with
  | case1 cur hlt ih =>
    by_cases hmore : cur + slice < stop
    · rw [min_eq_left hmore.le]
      refine Tiles.cons ?_ (ih hmore)
      simp only [slice, hours, minutes, seconds, milliseconds]
      omega
    · rw [min_eq_right (not_lt.1 hmore), slices, if_neg hmore]
      exact Tiles.last hlt
  | case2 cur hnot => exact absurd h hnot

theorem slices_le {start stop : Int} : ∀ w ∈ slices start stop, w.2 - w.1 ≤ slice := by
  fun_induction slices start stop with
  | case1 cur hlt ih =>
    intro w hw
    rcases List.mem_cons.1 hw with rfl | hw
    · have := min_le_left (cur + slice) stop
      simp only
      omega
    · exact ih w hw
  | case2 cur hnot => simp

/-- Every query ends if its answers are no errors. What it keeps are the rows of windows that tile the
period; every record of the period is among them or in a window reported as truncated, and what is
reported was capped and could not be halved. Slices tile the period. -/
theorem harvest_complete (fetch : Fetch R ε) (records : R → Prop) (time : R → Int) (start stop : Int)
    (hstart : start < stop)
    (hfetch : ∀ a b rows, fetch a b = .ok (rows, false) →
      ∀ r, records r → a ≤ time r → time r ≤ b → r ∈ rows) :
    ((∀ a b, ∃ answer, fetch a b = .ok answer) → ∃ out, harvest fetch start stop = .ok out) ∧
    (∀ out, harvest fetch start stop = .ok out →
      (∃ ws, Tiles start stop ws ∧ (∀ w ∈ ws, ∃ answer, fetch w.1 w.2 = .ok answer) ∧
        out.rows = ws.flatMap (rowsOf fetch) ∧ out.truncated = ws.filterMap (cappedOf fetch)) ∧
      (∀ r, records r → start ≤ time r → time r ≤ stop →
        r ∈ out.rows ∨ ∃ t ∈ out.truncated, t.1 ≤ time r ∧ time r ≤ t.2.1) ∧
      ∀ t ∈ out.truncated, (∃ rows, fetch t.1 t.2.1 = .ok (rows, true) ∧ t.2.2 = rows.length) ∧
        (t.2.1 - t.1 ≤ minWindow ∨ Halved start stop maxDepth t.1 t.2.1)) ∧
    Tiles start stop (slices start stop) ∧ ∀ w ∈ slices start stop, w.2 - w.1 ≤ slice := by
  refine ⟨fun hok => walk_returns hok _ _ _ _, fun out hout => ?_, tiles_slices hstart, slices_le⟩
  obtain ⟨ws, hkept, hrows, htrunc⟩ := walk_spec fetch start stop hstart (Nat.zero_le _) .start hout
  rw [List.nil_append] at hrows htrunc
  refine ⟨⟨ws, hkept.tiles, hkept.fetched, hrows, htrunc⟩, fun r hr hlo hhi => ?_, fun t ht => ?_⟩
  · rw [hrows, htrunc]
    exact hkept.mem_rows (fun a b rows h => hfetch a b rows h r hr) hlo hhi
  · rw [htrunc] at ht
    obtain ⟨w, hw, hcapped⟩ := List.mem_filterMap.1 ht
    obtain ⟨⟨rows, capped⟩, hanswer⟩ := hkept.fetched w hw
    cases capped with
    | false => simp [cappedOf, hanswer] at hcapped
    | true =>
      have hlimit := hkept.limit w hw (by rw [hcapped]; rfl)
      simp only [cappedOf, hanswer, Option.some.injEq] at hcapped
      obtain rfl := hcapped
      exact ⟨⟨rows, hanswer, rfl⟩, hlimit⟩

/-- One record, and answers that are capped from a hundred seconds on. -/
def cappedFetch : Fetch Int Unit := fun a b =>
  if seconds 100 < b - a then .ok ([], true)
  else .ok (if a ≤ seconds 70 ∧ seconds 70 ≤ b then [seconds 70] else [], false)

theorem harvest_complete_halved :
    ∃ out, harvest cappedFetch 0 (seconds 160) = .ok out ∧
      (seconds 70 ∈ out.rows ∨
        ∃ t ∈ out.truncated, t.1 ≤ seconds 70 ∧ seconds 70 ≤ t.2.1) := by
  have h := harvest_complete cappedFetch (fun r => r = seconds 70) id 0 (seconds 160) (by decide)
    (by
      intro a b rows hrows r hr hlo hhi
      subst hr
      simp only [cappedFetch, id_eq] at *
      split at hrows
      · simp at hrows
      · simp only [Except.ok.injEq, Prod.mk.injEq, and_true] at hrows
        rw [← hrows, if_pos ⟨hlo, hhi⟩]
        exact List.mem_singleton_self _)
  obtain ⟨out, hout⟩ := h.1 fun a b => by
    simp only [cappedFetch]
    split <;> exact ⟨_, rfl⟩
  exact ⟨out, hout, (h.2.1 out hout).2.1 _ rfl (by decide) (by decide)⟩

end IllumioOps.CollectWindows
