import Mathlib.Data.Int.Range
import Mathlib.Algebra.Order.Ring.Int

/-! # Tilings of integer ranges

    A run of segments *tiles* `[a, b)` when each starts where the one
    before it ended, from `a` to `b`. Walking through such a run visits
    every integer of the range once and in order. -/

namespace Tiling

/-- The integers `start, …, start + len - 1`. -/
structure Segment where
  start : Int
  len : Int
  deriving DecidableEq, Repr

/-- The members of a segment in increasing order. -/
def Segment.positions (s : Segment) : List Int := Int.range s.start (s.start + s.len)

/-- The segments lead from `a` to `b` without gap or overlap. -/
inductive Tiles : Int → List Segment → Int → Prop where
  | nil (a : Int) : Tiles a [] a
  | cons {s : Segment} {segs : List Segment} {b : Int} (nonneg : 0 ≤ s.len)
      (rest : Tiles (s.start + s.len) segs b) : Tiles s.start (s :: segs) b

theorem Tiles.le {a b : Int} {segs : List Segment} (h : Tiles a segs b) : a ≤ b := by
  induction h with
  | nil a => exact le_refl a
  | cons nonneg _ ih => omega

theorem Tiles.append {a b c : Int} {segs segs' : List Segment} (h : Tiles a segs b)
    (h' : Tiles b segs' c) : Tiles a (segs ++ segs') c := by
  induction h with
  | nil a => exact h'
  | cons nonneg _ ih => exact .cons nonneg (ih h')

theorem range_append {a b c : Int} (hab : a ≤ b) (hbc : b ≤ c) :
    Int.range a b ++ Int.range b c = Int.range a c := by
  have hlen : (c - a).toNat = (b - a).toNat + (c - b).toNat := by omega
  unfold Int.range
  rw [hlen, List.range_add, List.map_append, List.map_map]
  congr 1
  apply List.map_congr_left
  intro r _
  show b + (r : Int) = a + (((b - a).toNat + r : Nat) : Int)
  omega

theorem range_cons {a b : Int} (h : a < b) : Int.range a b = a :: Int.range (a + 1) b := by
  have hone : Int.range a (a + 1) = [a] := by
    simp [Int.range, show a + 1 - a = 1 by omega]
  rw [← range_append (b := a + 1) (by omega) (by omega), hone]
  rfl

/-- Walking through a tiling visits the range in order. -/
theorem Tiles.positions {a b : Int} {segs : List Segment} (h : Tiles a segs b) :
    segs.flatMap Segment.positions = Int.range a b := by
  induction h with
  | nil a => simp [Int.range]
  | @cons s segs b nonneg rest ih =>
    rw [List.flatMap_cons, ih, Segment.positions]
    exact range_append (by omega) rest.le

end Tiling
