import BlockFlow.Layout.Viewport
import BlockFlow.Proofs.Layout.Separation
import Mathlib.Tactic.Ring

/-!
Panning and zooming on exact coordinates. A viewport is known from its zoom and the point of the
canvas under one point of the screen, so zooming at a point comes down to the zoom that is reached.
Main statement: any run of moves keeps the zoom in range and the maps between screen and canvas
inverse, zooming at one point of the screen keeps what is under it, and a fitted viewport has the
rectangle in the middle of the screen and shows all of it where any zoom in range can.
-/

namespace BlockFlow

theorem less_rat (a b : ℚ) : Scalar.less a b = decide (a < b) := rfl

theorem lessEq_rat (a b : ℚ) : Scalar.lessEq a b = decide (a ≤ b) := rfl

theorem clamp?_rat {low high : ℚ} (h : low ≤ high) (x : ℚ) :
    Scalar.clamp? low high x = some (max low (min x high)) := by
  have hraised : (if x < low then low else x) = max low x := by rw [max_comm, max_def_lt]
  have hlowered : (if high < max low x then high else max low x) = min (max low x) high := by
    rw [min_comm, min_def_lt]
  simp only [Scalar.clamp?, less_rat, lessEq_rat, decide_eq_true_eq, if_pos h]
  rw [hraised, hlowered, max_min_distrib_left, max_eq_right h]

namespace LayoutConfig

/-- There is a zoom in range, and every zoom in range is positive. -/
structure ZoomRange (c : LayoutConfig ℚ) : Prop where
  pos : 0 < c.zoomMin
  le : c.zoomMin ≤ c.zoomMax

/-- The zoom in range that comes closest to a zoom. -/
def nearestZoom (c : LayoutConfig ℚ) (zoom : ℚ) : ℚ := max c.zoomMin (min zoom c.zoomMax)

theorem clampZoom?_eq {c : LayoutConfig ℚ} (hc : c.ZoomRange) (zoom : ℚ) :
    c.clampZoom? zoom = some (c.nearestZoom zoom) := clamp?_rat hc.le zoom

end LayoutConfig

namespace Rect

/-- The points of a rectangle, its edges among them. -/
def Contains (r : Rect ℚ) (p : Point ℚ) : Prop :=
  (r.x ≤ p.x ∧ p.x ≤ r.right) ∧ r.y ≤ p.y ∧ p.y ≤ r.bottom

def centre (r : Rect ℚ) : Point ℚ := ⟨r.x + r.width / 2, r.y + r.height / 2⟩

/-- A screen of the given size. -/
def screen (width height : ℚ) : Rect ℚ := ⟨0, 0, width, height⟩

/-- The largest zoom at which a screen has room for a rectangle. -/
def fittingZoom (r : Rect ℚ) (width height : ℚ) : ℚ := min (width / r.width) (height / r.height)

end Rect

namespace Viewport

variable {c : LayoutConfig ℚ} {v w : Viewport ℚ} {anchor : Point ℚ} {zoom : ℚ}

/-- The zoom is in range. -/
def Within (c : LayoutConfig ℚ) (v : Viewport ℚ) : Prop := c.zoomMin ≤ v.zoom ∧ v.zoom ≤ c.zoomMax

theorem Within.pos (hv : v.Within c) (hc : c.ZoomRange) : 0 < v.zoom := hc.pos.trans_le hv.1

theorem within_of_nearestZoom (hc : c.ZoomRange) (h : v.zoom = c.nearestZoom zoom) :
    v.Within c := by
  rw [Within, h]
  exact ⟨le_max_left .., max_le hc.le (min_le_right ..)⟩

section Maps

theorem screenToCanvas_canvasToScreen (hv : v.zoom ≠ 0) :
    Function.LeftInverse v.screenToCanvas v.canvasToScreen := by
  intro p
  simp only [screenToCanvas, canvasToScreen, add_sub_cancel_right, mul_div_cancel_right₀ _ hv]

theorem canvasToScreen_screenToCanvas (hv : v.zoom ≠ 0) :
    Function.RightInverse v.screenToCanvas v.canvasToScreen := by
  intro p
  simp only [screenToCanvas, canvasToScreen, div_mul_cancel₀ _ hv, sub_add_cancel]

/-- The viewport of another zoom that has the same point of the canvas under a point of the
screen. -/
def around (v : Viewport ℚ) (anchor : Point ℚ) (zoom : ℚ) : Viewport ℚ :=
  let fixed := v.screenToCanvas anchor
  ⟨⟨anchor.x - fixed.x * zoom, anchor.y - fixed.y * zoom⟩, zoom⟩

theorem screenToCanvas_around (hzoom : zoom ≠ 0) :
    (v.around anchor zoom).screenToCanvas anchor = v.screenToCanvas anchor := by
  simp [around, screenToCanvas, hzoom]

/-- There is no other viewport of that zoom. -/
theorem eq_around (hw : w.zoom ≠ 0) (h : w.screenToCanvas anchor = v.screenToCanvas anchor) :
    w = v.around anchor w.zoom := by
  have hback := canvasToScreen_screenToCanvas hw anchor
  rw [h] at hback
  obtain ⟨⟨px, py⟩, z⟩ := w
  have hx : px = anchor.x - (v.screenToCanvas anchor).x * z :=
    eq_sub_of_add_eq' (congrArg Point.x hback)
  have hy : py = anchor.y - (v.screenToCanvas anchor).y * z :=
    eq_sub_of_add_eq' (congrArg Point.y hback)
  simp only [around, ← hx, ← hy]

/-- Only the last zoom counts. -/
theorem around_around (hzoom : zoom ≠ 0) (last : ℚ) :
    (v.around anchor zoom).around anchor last = v.around anchor last := by
  rw [around, screenToCanvas_around hzoom, around]

end Maps

/-- What moves a viewport. -/
inductive Move where
  | pan (delta : Point ℚ)
  | setZoom (zoom : ℚ)
  | zoomAt (anchor : Point ℚ) (factor : ℚ)

namespace Move

def perform? (c : LayoutConfig ℚ) (v : Viewport ℚ) : Move → Option (Viewport ℚ)
  | pan delta => some (v.panBy delta)
  | setZoom zoom => v.setZoom? c zoom
  | zoomAt anchor factor => v.zoomAt? c anchor factor

/-- The zoom that a move leads to. -/
def zoomFrom (c : LayoutConfig ℚ) (zoom : ℚ) : Move → ℚ
  | pan _ => zoom
  | setZoom zoom => c.nearestZoom zoom
  | zoomAt _ factor => c.nearestZoom (zoom * factor)

end Move

/-- Makes moves one after the other. -/
def run? (c : LayoutConfig ℚ) (v : Viewport ℚ) (moves : List Move) : Option (Viewport ℚ) :=
  moves.foldlM (Move.perform? c) v

section Runs

variable {move : Move} {rest : List Move}

theorem run?_nil : v.run? c [] = some v := rfl

theorem run?_cons (h : move.perform? c v = some w) : v.run? c (move :: rest) = w.run? c rest := by
  rw [run?, List.foldlM_cons, h]
  rfl

theorem setZoom?_eq (hc : c.ZoomRange) :
    v.setZoom? c zoom = some { v with zoom := c.nearestZoom zoom } := by
  rw [setZoom?, c.clampZoom?_eq hc]
  rfl

theorem zoomAt?_eq (hc : c.ZoomRange) (factor : ℚ) :
    v.zoomAt? c anchor factor = some (v.around anchor (c.nearestZoom (v.zoom * factor))) := by
  rw [zoomAt?, setZoom?_eq hc]
  rfl

theorem exists_perform? (hc : c.ZoomRange) (hv : v.Within c) (move : Move) :
    ∃ w, move.perform? c v = some w ∧ w.zoom = move.zoomFrom c v.zoom ∧ w.Within c := by
  cases move with
  | pan delta => exact ⟨_, rfl, rfl, hv⟩
  | setZoom zoom => exact ⟨_, setZoom?_eq hc, rfl, within_of_nearestZoom hc rfl⟩
  | zoomAt anchor factor => exact ⟨_, zoomAt?_eq hc factor, rfl, within_of_nearestZoom hc rfl⟩

theorem exists_run? (hc : c.ZoomRange) (hv : v.Within c) (moves : List Move) :
    ∃ w, v.run? c moves = some w ∧ w.zoom = moves.foldl (Move.zoomFrom c) v.zoom ∧
      w.Within c := by
  induction moves generalizing v with
  | nil => exact ⟨v, run?_nil, rfl, hv⟩
  | cons move rest ih =>
    obtain ⟨u, hperform, hzoom, hu⟩ := exists_perform? hc hv move
    obtain ⟨w, hrun, hreached, hw⟩ := ih hu
    rw [hzoom] at hreached
    exact ⟨w, (run?_cons hperform).trans hrun, hreached, hw⟩

/-- Zooming at one point of the screen, also against the bounds, does what one step to the last zoom
does. -/
theorem run?_zoomAt (hc : c.ZoomRange) (hv : v.Within c) (anchor : Point ℚ) (factors : List ℚ) :
    v.run? c (factors.map (.zoomAt anchor)) =
      some (v.around anchor ((factors.map (.zoomAt anchor)).foldl (Move.zoomFrom c) v.zoom)) := by
  induction factors generalizing v with
  | nil => exact congrArg some (eq_around (hv.pos hc).ne' rfl)
  | cons factor rest ih =>
    have hstep : (Move.zoomAt anchor factor).perform? c v =
        some (v.around anchor (c.nearestZoom (v.zoom * factor))) := zoomAt?_eq hc factor
    have hu : (v.around anchor (c.nearestZoom (v.zoom * factor))).Within c :=
      within_of_nearestZoom hc rfl
    have hne : c.nearestZoom (v.zoom * factor) ≠ 0 := (hu.pos hc).ne'
    -- the first step keeps the point under the anchor, so the rest goes around the same point
    rw [List.map_cons, run?_cons hstep, ih hu, around_around hne]
    rfl

end Runs

section Fits

variable {bounds : Rect ℚ} {width height : ℚ}

/-- All of a rectangle is on a screen. -/
def Shows (v : Viewport ℚ) (bounds screen : Rect ℚ) : Prop :=
  ∀ p, bounds.Contains p → screen.Contains (v.canvasToScreen p)

/-- The pan along one side that brings the middle of a length to the middle of the room there is. -/
def centring (start length room zoom : ℚ) : ℚ := (room - length * zoom) / 2 - start * zoom

section Sides

variable {start length room pan x : ℚ}

theorem middle_centring :
    (start + length / 2) * zoom + centring start length room zoom = 0 + room / 2 := by
  unfold centring
  ring

theorem centring_within (hlength : 0 < length) (hzoom : 0 ≤ zoom) (hfits : zoom ≤ room / length)
    (hx : start ≤ x ∧ x ≤ start + length) :
    0 ≤ x * zoom + centring start length room zoom ∧
      x * zoom + centring start length room zoom ≤ 0 + room := by
  have hroom : zoom * length ≤ room := (le_div_iff₀ hlength).mp hfits
  have hleft : start * zoom ≤ x * zoom := mul_le_mul_of_nonneg_right hx.1 hzoom
  have hright : x * zoom ≤ (start + length) * zoom := mul_le_mul_of_nonneg_right hx.2 hzoom
  unfold centring
  constructor <;> linarith

/-- A length whose two ends are within a room is no longer than it. -/
theorem le_div_of_ends (hlength : 0 < length) (hstart : 0 ≤ start * zoom + pan)
    (hend : (start + length) * zoom + pan ≤ 0 + room) : zoom ≤ room / length := by
  rw [le_div_iff₀ hlength]
  linarith

end Sides

theorem fit?_eq (hc : c.ZoomRange) (hwidth : 0 < bounds.width) (hheight : 0 < bounds.height) :
    fit? c bounds width height =
      let zoom := c.nearestZoom (bounds.fittingZoom width height)
      some ⟨⟨centring bounds.x bounds.width width zoom,
        centring bounds.y bounds.height height zoom⟩, zoom⟩ := by
  have hinside : (Scalar.lessEq bounds.width (Scalar.ofNat 0) ||
      Scalar.lessEq bounds.height (Scalar.ofNat 0)) = false := by
    simpa [lessEq_rat] using ⟨hwidth, hheight⟩
  rw [fit?, hinside, smaller_rat, c.clampZoom?_eq hc]
  rfl

/-- No viewport shows all of a rectangle at a larger zoom than there is room for. -/
theorem Shows.zoom_le (h : v.Shows bounds (.screen width height)) (hwidth : 0 < bounds.width)
    (hheight : 0 < bounds.height) : v.zoom ≤ bounds.fittingZoom width height := by
  have hfirst := h ⟨bounds.x, bounds.y⟩ ⟨⟨le_rfl, by simp [Rect.right, hwidth.le]⟩,
    le_rfl, by simp [Rect.bottom, hheight.le]⟩
  have hlast := h ⟨bounds.right, bounds.bottom⟩ ⟨⟨by simp [Rect.right, hwidth.le], le_rfl⟩,
    by simp [Rect.bottom, hheight.le], le_rfl⟩
  exact le_min (le_div_of_ends hwidth hfirst.1.1 hlast.1.2)
    (le_div_of_ends hheight hfirst.2.1 hlast.2.2)

/-- The viewport has a rectangle in the middle of a screen, no smaller than another viewport in
range that shows all of it, and shows all of it itself where a zoom in range is small enough. -/
structure Fits (c : LayoutConfig ℚ) (bounds : Rect ℚ) (width height : ℚ) (v : Viewport ℚ) :
    Prop where
  within : v.Within c
  centred : v.canvasToScreen bounds.centre = (Rect.screen width height).centre
  shows : v.Shows bounds (.screen width height) ↔ c.zoomMin ≤ bounds.fittingZoom width height
  largest : ∀ u : Viewport ℚ, u.Within c → u.Shows bounds (.screen width height) →
    u.zoom ≤ v.zoom

theorem exists_fit? (hc : c.ZoomRange) (hwidth : 0 < bounds.width) (hheight : 0 < bounds.height) :
    ∃ v, fit? c bounds width height = some v ∧ v.Fits c bounds width height := by
  refine ⟨_, fit?_eq hc hwidth hheight, ?_⟩
  have hwithin (pan : Point ℚ) :
      (⟨pan, c.nearestZoom (bounds.fittingZoom width height)⟩ : Viewport ℚ).Within c :=
    within_of_nearestZoom hc rfl
  refine ⟨hwithin _, ?_, ⟨fun h => ?_, fun h p hp => ?_⟩, fun u hu h => ?_⟩
  · exact congrArg₂ Point.mk middle_centring middle_centring
  · exact (hwithin _).1.trans (h.zoom_le hwidth hheight)
  · -- the zoom was not raised, so it is at most what there is room for on either side
    have hzoom : c.nearestZoom (bounds.fittingZoom width height) ≤
        bounds.fittingZoom width height := max_le h (min_le_left ..)
    have hpos := ((hwithin .origin).pos hc).le
    exact ⟨centring_within hwidth hpos (hzoom.trans (min_le_left ..)) hp.1,
      centring_within hheight hpos (hzoom.trans (min_le_right ..)) hp.2⟩
  · exact (le_min (h.zoom_le hwidth hheight) hu.2).trans (le_max_right ..)

end Fits

/-- What holds of a viewport and of all that it is moved to. -/
structure Consistent (c : LayoutConfig ℚ) (v : Viewport ℚ) : Prop where
  /-- Every run of moves comes to an end, with the zoom that the moves lead to. -/
  moves : ∀ moves, ∃ w, v.run? c moves = some w ∧
    w.zoom = moves.foldl (Move.zoomFrom c) v.zoom ∧ w.Within c ∧
    Function.LeftInverse w.screenToCanvas w.canvasToScreen ∧
    Function.RightInverse w.screenToCanvas w.canvasToScreen
  /-- Zooming at one point of the screen keeps what is under it. -/
  anchored : ∀ (anchor : Point ℚ) (factors : List ℚ), ∃ w,
    v.run? c (factors.map (.zoomAt anchor)) = some w ∧
    w.screenToCanvas anchor = v.screenToCanvas anchor
  /-- Any rectangle with an inside is fitted to a screen of any size. -/
  fits : ∀ (bounds : Rect ℚ) (width height : ℚ), 0 < bounds.width → 0 < bounds.height →
    ∃ w, fit? c bounds width height = some w ∧ w.Fits c bounds width height

theorem consistent_of_within (hc : c.ZoomRange) (hv : v.Within c) : v.Consistent c where
  moves moves := by
    obtain ⟨w, hrun, hzoom, hw⟩ := exists_run? hc hv moves
    have hne := (hw.pos hc).ne'
    exact ⟨w, hrun, hzoom, hw, screenToCanvas_canvasToScreen hne, canvasToScreen_screenToCanvas hne⟩
  anchored anchor factors := by
    obtain ⟨w, hrun, -, hw⟩ := exists_run? hc hv (factors.map (.zoomAt anchor))
    obtain rfl := Option.some.inj (hrun.symm.trans (run?_zoomAt hc hv anchor factors))
    exact ⟨_, hrun, screenToCanvas_around (hw.pos hc).ne'⟩
  fits bounds width height hwidth hheight := exists_fit? hc hwidth hheight

/-- The standard range, in which the first and the third step stop at a bound, and a rectangle that
is too wide for the screen at every zoom in range. -/
theorem natural_consistent : LayoutConfig.exact.ZoomRange ∧ Within .exact natural ∧
    (∃ w, run? .exact natural
        [.zoomAt ⟨100, 50⟩ 10, .pan ⟨30, -20⟩, .zoomAt ⟨0, 0⟩ (-3), .setZoom 2] = some w ∧
      w.zoom = 2 ∧ w.Within .exact ∧ w.screenToCanvas (w.canvasToScreen ⟨15, 40⟩) = ⟨15, 40⟩) ∧
    (∃ w, run? .exact natural ([10, 1 / 2, -3].map (.zoomAt ⟨100, 50⟩)) = some w ∧
      w.screenToCanvas ⟨100, 50⟩ = ⟨100, 50⟩) ∧
    ∃ w, fit? .exact ⟨0, 0, 4000, 100⟩ 400 400 = some w ∧
      w.canvasToScreen ⟨2000, 50⟩ = ⟨200, 200⟩ ∧
      ¬ w.Shows ⟨0, 0, 4000, 100⟩ (.screen 400 400) := by
  have hc : LayoutConfig.exact.ZoomRange := by
    constructor <;> simp only [LayoutConfig.exact] <;> norm_num
  have hv : Within .exact natural := by
    simp only [Within, LayoutConfig.exact, natural, ofNat_rat]
    norm_num
  have h := consistent_of_within hc hv
  refine ⟨hc, hv, ?_, ?_, ?_⟩
  · obtain ⟨w, hrun, hzoom, hw, hinverse, -⟩ := h.moves
      [.zoomAt ⟨100, 50⟩ 10, .pan ⟨30, -20⟩, .zoomAt ⟨0, 0⟩ (-3), .setZoom 2]
    have htwo : LayoutConfig.exact.nearestZoom 2 = 2 := by
      norm_num [LayoutConfig.nearestZoom, LayoutConfig.exact]
    exact ⟨w, hrun, hzoom.trans htwo, hw, hinverse _⟩
  · obtain ⟨w, hrun, hpoint⟩ := h.anchored ⟨100, 50⟩ [10, 1 / 2, -3]
    have hstart : natural.screenToCanvas (⟨100, 50⟩ : Point ℚ) = ⟨100, 50⟩ := by
      simp [screenToCanvas, natural, Point.origin]
    exact ⟨w, hrun, hpoint.trans hstart⟩
  · obtain ⟨w, hfit, hfits⟩ := h.fits ⟨0, 0, 4000, 100⟩ 400 400 (by norm_num) (by norm_num)
    refine ⟨w, hfit, ?_, ?_⟩
    · have hcentred := hfits.centred
      norm_num [Rect.centre, Rect.screen] at hcentred
      exact hcentred
    · rw [hfits.shows]
      norm_num [Rect.fittingZoom, LayoutConfig.exact]

end Viewport

end BlockFlow
