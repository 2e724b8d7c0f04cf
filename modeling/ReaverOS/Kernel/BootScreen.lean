import Mathlib.Tactic.Linarith
import Mathlib.Tactic.Ring

namespace ReaverOS.Kernel.BootScreen

open List

section

open Function

inductive PixelFormat
  | rgb
  | bgr
  | mask
  deriving DecidableEq

structure VideoMode where
  framebufferSize : BitVec 64
  x : BitVec 32
  y : BitVec 32
  ppl : BitVec 32
  format : PixelFormat := .rgb
  masks : BitVec 32 × BitVec 32 × BitVec 32 := (0, 0, 0)

/-- The buffers are their pixels. The last two fields record the ranges of the framebuffer that were
written and the bytes of the font that were read. -/
structure Screen where
  valid : Bool := false
  mode : VideoMode
  framebuffer : ℕ → BitVec 32
  backbuffer : ℕ → BitVec 32
  x : BitVec 16 := 0
  y : BitVec 16 := 0
  maxx : BitVec 16 := 0
  maxy : BitVec 16 := 0
  written : List (ℕ × ℕ) := []
  fontReads : List ℤ := []

def overwrite (bytes : ℕ) (old new : BitVec 32) : BitVec 32 :=
  (old >>> (8 * bytes)) <<< (8 * bytes) ||| (new &&& ((1 <<< (8 * bytes)) - 1))

def copy (bytes : ℕ) (old new : ℕ → BitVec 32) : ℕ → BitVec 32 := fun i ↦
  if 4 * (i + 1) ≤ bytes then new i
  else if 4 * i < bytes then overwrite (bytes - 4 * i) (old i) (new i)
  else old i

namespace Screen

def clear (s : Screen) : Screen :=
  if s.valid then
    { s with
      framebuffer := copy s.mode.framebufferSize.toNat s.framebuffer fun _ ↦ 0
      backbuffer := copy s.mode.framebufferSize.toNat s.backbuffer fun _ ↦ 0
      x := 0
      y := 0 }
  else s

def initializeScreen (mode : VideoMode) (framebuffer backbuffer : ℕ → BitVec 32) : Screen :=
  let s : Screen := { valid := true, mode, framebuffer, backbuffer }
  { s with maxx := (mode.x / 8).setWidth 16, maxy := (mode.y / 16).setWidth 16 }.clear

def scroll (s : Screen) : Screen :=
  if s.valid then
    let line := (s.mode.ppl * 16).toNat
    let kept := ((s.maxy.setWidth 32 - 1) * s.mode.ppl * 16).toNat
    let backbuffer := fun i ↦ if i < kept then s.backbuffer (i + line) else s.backbuffer i
    let backbuffer := fun i ↦ if kept ≤ i ∧ i < kept + line then 0 else backbuffer i
    { s with
      framebuffer := copy s.mode.framebufferSize.toNat s.framebuffer backbuffer
      backbuffer := backbuffer
      y := s.y - 1
      written := (0, (s.mode.framebufferSize.toNat + 3) / 4) :: s.written }
  else s

def color (mode : VideoMode) : BitVec 32 :=
  match mode.format with
  | .rgb | .bgr => 0x00ffffff
  | .mask => 0xffffffff &&& (mode.masks.1 ||| mode.masks.2.1 ||| mode.masks.2.2)

def setPixel (s : Screen) (i : ℕ) (pixel : BitVec 32) : Screen :=
  { s with
    framebuffer := update s.framebuffer i pixel
    backbuffer := update s.backbuffer i pixel
    written := (i, 1) :: s.written }

def drawRow (s : Screen) (dest : ℕ) (rowData : BitVec 8) : Screen :=
  (List.range 8).foldl (fun s column ↦
    s.setPixel (dest + column) (if rowData.getLsbD (7 - column) then color s.mode else 0)) s

def dest (s : Screen) : ℕ :=
  (s.y.setWidth 32 * s.mode.ppl * 16).toNat + s.x.toNat * 8

def drawGlyph (font : ℤ → BitVec 8) (s : Screen) (c : BitVec 8) : Screen :=
  let dest := s.dest
  (List.range 16).foldl (fun s (row : ℕ) ↦
    let i : ℤ := c.toInt * 16 + row
    drawRow { s with fontReads := i :: s.fontReads } (dest + row * s.mode.ppl.toNat) (font i)) s

def place (font : ℤ → BitVec 8) (s : Screen) (c : BitVec 8) : Screen :=
  if c = 10 then { s with y := s.y + 1, x := 0 }
  else if c = 9 then { s with x := s.x + (8 - s.x % 8) }
  else
    let s := s.drawGlyph font c
    { s with x := s.x + 1 }

def wrap (s : Screen) : Screen :=
  if s.x = s.maxx then { s with x := 0, y := s.y + 1 } else s

def scrollLoop : ℕ → Screen → Option Screen
  | 0, _ => none
  | rounds + 1, s => if s.y ≥ s.maxy then scrollLoop rounds s.scroll else some s

def putChar (rounds : ℕ) (font : ℤ → BitVec 8) (s : Screen) (c : BitVec 8) : Option Screen :=
  if s.valid then scrollLoop rounds (s.place font c).wrap else some s

end Screen

variable {font : ℤ → BitVec 8} {s t u : Screen} {c : BitVec 8}
  {P : ℕ × ℕ → Prop} {R : ℤ → Prop}

def Screen.fixed (s : Screen) : Bool × VideoMode × BitVec 16 × BitVec 16 :=
  (s.valid, s.mode, s.maxx, s.maxy)

structure Paints (P : ℕ × ℕ → Prop) (R : ℤ → Prop) (s t : Screen) : Prop where
  fixed : t.fixed = s.fixed
  x : t.x = s.x
  y : t.y = s.y
  written : ∀ r ∈ t.written, r ∈ s.written ∨ P r
  fontReads : ∀ i ∈ t.fontReads, i ∈ s.fontReads ∨ R i
  keeps : ∀ i ∈ s.fontReads, i ∈ t.fontReads

theorem Paints.refl (s : Screen) : Paints P R s s :=
  ⟨rfl, rfl, rfl, fun _ hr ↦ .inl hr, fun _ hi ↦ .inl hi, fun _ hi ↦ hi⟩

theorem Paints.trans (h : Paints P R s t) (h' : Paints P R t u) : Paints P R s u where
  fixed := h'.fixed.trans h.fixed
  x := h'.x.trans h.x
  y := h'.y.trans h.y
  written r hr := (h'.written r hr).elim (h.written r) .inr
  fontReads i hi := (h'.fontReads i hi).elim (h.fontReads i) .inr
  keeps i hi := h'.keeps i (h.keeps i hi)

theorem Paints.foldl {α : Type} {f : Screen → α → Screen} {as : List α}
  (h : ∀ t, t.fixed = s.fixed → ∀ a ∈ as, Paints P R t (f t a)) : Paints P R s (as.foldl f s) := by
  induction as generalizing s with
  | nil => exact .refl s
  | cons a as ih =>
    have hf := h s rfl a mem_cons_self
    refine hf.trans (ih fun t ht b hb ↦ ?_)
    exact h t (ht.trans hf.fixed) b (mem_cons_of_mem _ hb)

theorem paints_drawRow (s : Screen) (d : ℕ) (ro : BitVec 8) :
  Paints (fun r ↦ ∃ co < 8, r = (d + co, 1)) R s (s.drawRow d ro) := by
  refine .foldl fun t _ co hc ↦ ⟨rfl, rfl, rfl, ?_, fun _ hi ↦ .inl hi, fun _ hi ↦ hi⟩
  intro r hr
  obtain rfl | hr := mem_cons.mp hr
  · exact .inr ⟨co, mem_range.mp hc, rfl⟩
  · exact .inl hr

theorem paints_row (s : Screen) (d : ℕ) (i : ℤ) (ro : BitVec 8) :
  Paints (fun r ↦ ∃ co < 8, r = (d + co, 1)) (· = i) s
  (Screen.drawRow { s with fontReads := i :: s.fontReads } d ro) := by
  refine Paints.trans ?_ (paints_drawRow _ d ro)
  refine ⟨rfl, rfl, rfl, fun _ hr ↦ .inl hr, fun j hj ↦ ?_, fun j hj ↦ mem_cons_of_mem _ hj⟩
  obtain rfl | hj := mem_cons.mp hj
  · exact .inr rfl
  · exact .inl hj

theorem Paints.mono {P' : ℕ × ℕ → Prop} {R' : ℤ → Prop} (h : Paints P R s t)
  (hP : ∀ r, P r → P' r) (hR : ∀ i, R i → R' i) : Paints P' R' s t :=
  ⟨h.fixed, h.x, h.y, fun r hr ↦ (h.written r hr).imp_right (hP r),
    fun i hi ↦ (h.fontReads i hi).imp_right (hR i), h.keeps⟩

theorem paints_drawGlyph (fo : ℤ → BitVec 8) (s : Screen) (c : BitVec 8) :
  Paints (fun r ↦ ∃ ro < 16, ∃ co < 8, r = (s.dest + ro * s.mode.ppl.toNat + co, 1))
  (fun i ↦ ∃ ro < 16, i = c.toInt * 16 + (ro : ℕ)) s (s.drawGlyph fo c) := by
  refine .foldl fun t ht ro hro ↦ ?_
  have hm : t.mode = s.mode := congrArg (fun f ↦ f.2.1) ht
  refine (paints_row t _ _ _).mono (fun r hr ↦ ?_) fun i hi ↦ ⟨ro, mem_range.mp hro, hi⟩
  obtain ⟨co, hc, rfl⟩ := hr
  exact ⟨ro, mem_range.mp hro, co, hc, by rw [hm]⟩

theorem mem_fontReads_drawGlyph (f : ℤ → BitVec 8) (s : Screen) (c : BitVec 8) :
  c.toInt * 16 ∈ (s.drawGlyph f c).fontReads := by
  rw [Screen.drawGlyph, show List.range 16 = 0 :: (List.range 15).map (· + 1) from rfl, foldl_cons]
  refine Paints.keeps (P := fun _ ↦ True) (R := fun _ ↦ True)
    (.foldl fun t _ r _ ↦ (paints_row t _ _ _).mono (fun _ _ ↦ trivial) fun _ _ ↦ trivial) _ ?_
  refine (paints_drawRow (R := fun _ ↦ True) _ _ _).keeps _ ?_
  simp

theorem fixed_scroll (s : Screen) : s.scroll.fixed = s.fixed := by
  by_cases hv : s.valid = true
  · rw [Screen.scroll, if_pos hv]
    rfl
  · rw [Screen.scroll, if_neg hv]

theorem fixed_place (s : Screen) (c : BitVec 8) : (s.place font c).fixed = s.fixed := by
  rw [Screen.place]
  split
  · rfl
  · split
    · rfl
    · have hp := paints_drawGlyph font s c
      generalize s.drawGlyph font c = drawn at hp
      exact hp.fixed

theorem fixed_wrap (s : Screen) : s.wrap.fixed = s.fixed := by
  rw [Screen.wrap]
  split <;> rfl

theorem fixed_scrollLoop {n : ℕ} (h : s.scrollLoop n = some t) : t.fixed = s.fixed := by
  induction n generalizing s with
  | zero => cases h
  | succ n ih =>
    rw [Screen.scrollLoop] at h
    split at h
    · exact (ih h).trans (fixed_scroll s)
    · cases h
      rfl

theorem fixed_putChar {n : ℕ} (h : s.putChar n font c = some t) : t.fixed = s.fixed := by
  rw [Screen.putChar] at h
  split at h
  · exact (fixed_scrollLoop h).trans ((fixed_wrap _).trans (fixed_place s c))
  · cases h
    rfl

def settle (s : Screen) : Screen := if s.y < s.maxy then s else s.scroll

theorem scrollLoop_settle (hv : s.valid = true) (hy : s.y.toNat ≤ s.maxy.toNat)
  (hm : 0 < s.maxy.toNat) : s.scrollLoop 2 = some (settle s) ∧
  ∀ n t, s.scrollLoop n = some t → t = settle s := by
  by_cases hlt : s.y < s.maxy
  · have hn := BitVec.not_le.mpr hlt
    rw [settle, if_pos hlt]
    refine ⟨by rw [Screen.scrollLoop, if_neg hn], fun n t h ↦ ?_⟩
    cases n with
    | zero => cases h
    | succ n =>
      rw [Screen.scrollLoop, if_neg hn] at h
      exact (Option.some.inj h).symm
  · have heq : s.y = s.maxy := BitVec.eq_of_toNat_eq (le_antisymm hy (not_lt.mp hlt))
    have hge := BitVec.not_lt.mp hlt
    have hm' : s.scroll.maxy = s.maxy := congrArg (fun f ↦ f.2.2.2) (fixed_scroll s)
    have hy' : s.scroll.y = s.maxy - 1 := by
      rw [Screen.scroll, if_pos hv, heq]
    have ho := hm
    have hn : ¬ s.scroll.y ≥ s.scroll.maxy := by
      rw [hy', hm', ge_iff_le, BitVec.le_def, BitVec.toNat_sub_of_le ho]
      exact not_le.mpr (Nat.sub_lt hm Nat.one_pos)
    rw [settle, if_neg hlt]
    refine ⟨by rw [Screen.scrollLoop, if_pos hge, Screen.scrollLoop, if_neg hn], ?_⟩
    intro n t h
    cases n with
    | zero => cases h
    | succ n =>
      rw [Screen.scrollLoop, if_pos hge] at h
      cases n with
      | zero => cases h
      | succ n =>
        rw [Screen.scrollLoop, if_neg hn] at h
        exact (Option.some.inj h).symm

end

structure OnScreen (s : Screen) : Prop where
  x : s.x < s.maxx
  y : s.y < s.maxy
  written : ∀ r ∈ s.written, r.2 = 0 ∨ r.1 + r.2 ≤ s.maxy.toNat * 16 * s.mode.ppl.toNat
  fontReads : ∀ i ∈ s.fontReads, 0 ≤ i ∧ i < 256 * 16

def StaysOnScreen (font : ℤ → BitVec 8) : Screen → List (BitVec 8) → Prop
  | _, [] => True
  | s, c :: cs => ∃ rounds t, s.putChar rounds font c = some t ∧ OnScreen t ∧
      StaysOnScreen font t cs

structure Extent where
  columns : ℕ
  lines : ℕ
  pixels : ℕ
  size : ℕ

def column (x : ℕ) (c : BitVec 8) : ℕ :=
  if c = 9 then (x + (8 - x % 8)) % 2 ^ 16 else x + 1

def feedsLine (e : Extent) (x : ℕ) (c : BitVec 8) : Prop := c = 10 ∨ column x c = e.columns

instance instDecidableFeedsLine (e : Extent) (x : ℕ) (c : BitVec 8) : Decidable (feedsLine e x c) :=
  inferInstanceAs (Decidable (_ ∨ _))

/-- The character has a glyph, a tab has a stop no further than the last column, and lines are moved
only if there are no pixels below them. -/
structure Fits (e : Extent) (x y : ℕ) (c : BitVec 8) : Prop where
  glyph : 0 ≤ c.toInt
  tab : c = 9 → column x c ≤ e.columns
  scroll : feedsLine e x c → y + 1 = e.lines → e.size ≤ 4 * e.pixels

instance instDecidableFits (e : Extent) (x y : ℕ) (c : BitVec 8) : Decidable (Fits e x y c) :=
  decidable_of_iff (0 ≤ c.toInt ∧ (c = 9 → column x c ≤ e.columns) ∧
      (feedsLine e x c → y + 1 = e.lines → e.size ≤ 4 * e.pixels))
    ⟨fun h ↦ ⟨h.1, h.2.1, h.2.2⟩, fun h ↦ ⟨h.glyph, h.tab, h.scroll⟩⟩

def nextColumn (e : Extent) (x : ℕ) (c : BitVec 8) : ℕ := if feedsLine e x c then 0 else column x c

def nextLine (e : Extent) (x y : ℕ) (c : BitVec 8) : ℕ :=
  if feedsLine e x c then min (y + 1) (e.lines - 1) else y

def AllFit (e : Extent) : ℕ → ℕ → List (BitVec 8) → Prop
  | _, _, [] => True
  | x, y, c :: cs => Fits e x y c ∧ AllFit e (nextColumn e x c) (nextLine e x y c) cs

instance instDecidableAllFit (e : Extent) :
  (x y : ℕ) → (cs : List (BitVec 8)) → Decidable (AllFit e x y cs)
  | _, _, [] => .isTrue trivial
  | x, y, c :: cs =>
    have := instDecidableAllFit e (nextColumn e x c) (nextLine e x y c) cs
    inferInstanceAs (Decidable (_ ∧ _))

def VideoMode.extent (mode : VideoMode) : Extent where
  columns := mode.x.toNat / 8 % 2 ^ 16
  lines := mode.y.toNat / 16 % 2 ^ 16
  pixels := mode.y.toNat / 16 % 2 ^ 16 * 16 * mode.ppl.toNat
  size := mode.framebufferSize.toNat

variable {font : ℤ → BitVec 8} {mode : VideoMode} {s t : Screen} {c : BitVec 8}

structure Ready (mode : VideoMode) (s : Screen) : Prop where
  valid : s.valid = true
  maxx : s.maxx.toNat = mode.extent.columns
  maxy : s.maxy.toNat = mode.extent.lines
  mode : s.mode = mode

theorem Ready.of_fixed (h : Ready mode s) (hf : t.fixed = s.fixed) : Ready mode t := by
  simp only [Screen.fixed, Prod.mk.injEq] at hf
  obtain ⟨hv, hm, hma, hmx⟩ := hf
  exact ⟨hv.trans h.valid, hma ▸ h.maxx, hmx ▸ h.maxy, hm.trans h.mode⟩

theorem place_cursor (f : ℤ → BitVec 8) (hx : s.x < s.maxx) (hc : c ≠ 10) :
  (s.place f c).x.toNat = column s.x.toNat c ∧ (s.place f c).y = s.y := by
  have hlt := s.maxx.isLt
  have hx' : s.x.toNat < s.maxx.toNat := hx
  rw [Screen.place, if_neg hc, column]
  by_cases ht : c = 9
  · have hm : (s.x % 8).toNat = s.x.toNat % 8 := BitVec.toNat_umod
    have hle : s.x % 8 ≤ 8 := by
      rw [BitVec.le_def, hm]
      exact (Nat.mod_lt _ (by decide)).le
    rw [if_pos ht, if_pos ht]
    refine ⟨?_, rfl⟩
    dsimp only
    rw [BitVec.toNat_add, BitVec.toNat_sub_of_le hle, hm]
    rfl
  · have hp := paints_drawGlyph f s c
    rw [if_neg ht, if_neg ht]
    generalize s.drawGlyph f c = drawn at hp
    refine ⟨?_, hp.y⟩
    dsimp only
    rw [BitVec.toNat_add, hp.x, show (1 : BitVec 16).toNat = 1 from rfl]
    exact Nat.mod_eq_of_lt (by omega)

theorem Ready.pixels (h : Ready mode s) :
  s.maxy.toNat * 16 * s.mode.ppl.toNat = mode.extent.pixels := by
  rw [h.maxy, h.mode]
  rfl

theorem wrap_logs (s : Screen) : s.wrap.written = s.written ∧ s.wrap.fontReads = s.fontReads := by
  rw [Screen.wrap]
  split
  · exact ⟨rfl, rfl⟩
  · exact ⟨rfl, rfl⟩

theorem dest_le (s : Screen) : s.dest ≤ s.y.toNat * 16 * s.mode.ppl.toNat + s.x.toNat * 8 := by
  have hyw : (s.y.setWidth 32).toNat = s.y.toNat := BitVec.toNat_setWidth_of_le (by decide)
  rw [Screen.dest, BitVec.toNat_mul, BitVec.toNat_mul, hyw, mul_right_comm]
  exact Nat.add_le_add_right ((Nat.mod_le _ _).trans (Nat.mul_le_mul_right _ (Nat.mod_le _ _))) _

section Call

variable (h : Ready mode s) (hx : s.x < s.maxx) (hy : s.y < s.maxy)

include h hx hy

theorem wrap_cursor (fo : ℤ → BitVec 8) (c : BitVec 8) :
  (s.place fo c).wrap.x.toNat = nextColumn mode.extent s.x.toNat c ∧ (s.place fo c).wrap.y.toNat =
  if feedsLine mode.extent s.x.toNat c then s.y.toNat + 1 else s.y.toNat := by
  have hx' : s.x.toNat < s.maxx.toNat := hx
  have hy' : s.y.toNat < s.maxy.toNat := hy
  have hlt := s.maxy.isLt
  have hs : (s.y + 1).toNat = s.y.toNat + 1 := by
    rw [BitVec.toNat_add, show (1 : BitVec 16).toNat = 1 from rfl]
    exact Nat.mod_eq_of_lt (by omega)
  have hm : (s.place fo c).maxx = s.maxx := congrArg (fun f ↦ f.2.2.1) (fixed_place s c)
  rw [nextColumn]
  by_cases hc : c = 10
  · have hf : feedsLine mode.extent s.x.toNat c := .inl hc
    have hp : s.place fo c = { s with y := s.y + 1, x := 0 } := if_pos hc
    have hne : ¬ (0 : BitVec 16) = s.maxx := by
      rintro heq
      rw [← heq] at hx'
      exact Nat.not_lt_zero _ hx'
    rw [if_pos hf, if_pos hf, hp, Screen.wrap, if_neg hne]
    exact ⟨rfl, hs⟩
  · obtain ⟨hco, hl⟩ := place_cursor fo hx hc
    by_cases he : (s.place fo c).x = (s.place fo c).maxx
    · have hf : feedsLine mode.extent s.x.toNat c := by
        right
        rw [← hco, he, hm, h.maxx]
      rw [if_pos hf, if_pos hf, Screen.wrap, if_pos he, hl]
      exact ⟨rfl, hs⟩
    · have hf : ¬ feedsLine mode.extent s.x.toNat c := by
        rintro (hfe | hfu)
        · exact hc hfe
        · rw [← hco, ← h.maxx, ← hm] at hfu
          exact he (BitVec.eq_of_toNat_eq hfu)
      rw [if_neg hf, if_neg hf, Screen.wrap, if_neg he, hl]
      exact ⟨hco, rfl⟩

theorem glyph_inside (hp : mode.x.toNat ≤ mode.ppl.toNat) {r co : ℕ} (hr : r < 16) (hco : co < 8) :
  s.dest + r * s.mode.ppl.toNat + co + 1 ≤ s.maxy.toNat * 16 * s.mode.ppl.toNat := by
  have hd := dest_le s
  have hx' : s.x.toNat < s.maxx.toNat := hx
  have hy' : s.y.toNat < s.maxy.toNat := hy
  have hc : s.maxx.toNat * 8 ≤ s.mode.ppl.toNat := by
    rw [h.maxx, h.mode]
    have : mode.extent.columns = mode.x.toNat / 8 % 2 ^ 16 := rfl
    have := Nat.mod_le (mode.x.toNat / 8) (2 ^ 16)
    omega
  calc s.dest + r * s.mode.ppl.toNat + co + 1
    ≤ s.y.toNat * 16 * s.mode.ppl.toNat + r * s.mode.ppl.toNat + s.mode.ppl.toNat := by omega
    _ = (s.y.toNat * 16 + r + 1) * s.mode.ppl.toNat := by ring
    _ ≤ s.maxy.toNat * 16 * s.mode.ppl.toNat := Nat.mul_le_mul_right _ (by omega)

theorem place_written (f : ℤ → BitVec 8) (c : BitVec 8) (hp : mode.x.toNat ≤ mode.ppl.toNat)
  (hw : ∀ r ∈ s.written, r.2 = 0 ∨ r.1 + r.2 ≤ s.maxy.toNat * 16 * s.mode.ppl.toNat) :
  ∀ r ∈ (s.place f c).written, r.2 = 0 ∨ r.1 + r.2 ≤ s.maxy.toNat * 16 * s.mode.ppl.toNat := by
  intro r hr
  rw [Screen.place] at hr
  split at hr
  · exact hw r hr
  · split at hr
    · exact hw r hr
    · obtain hr | ⟨row, hro, col, hc, rfl⟩ := (paints_drawGlyph f s c).written r hr
      · exact hw r hr
      · exact .inr (glyph_inside h hx hy hp hro hc)

end Call

theorem place_fontReads (f : ℤ → BitVec 8) (c : BitVec 8)
  (hr : ∀ i ∈ s.fontReads, 0 ≤ i ∧ i < 256 * 16) :
  (∀ i ∈ (s.place f c).fontReads, 0 ≤ i ∧ i < 256 * 16) ↔ 0 ≤ c.toInt := by
  rw [Screen.place]
  by_cases hf : c = 10
  · rw [if_pos hf, hf]
    exact iff_of_true hr (by decide)
  · rw [if_neg hf]
    by_cases ht : c = 9
    · rw [if_pos ht, ht]
      exact iff_of_true hr (by decide)
    · rw [if_neg ht]
      have hp := paints_drawGlyph f s c
      have hfi := mem_fontReads_drawGlyph f s c
      generalize s.drawGlyph f c = drawn at hp hfi
      constructor
      · intro ha
        have := (ha _ hfi).1
        omega
      · intro hn i hi
        obtain hi | ⟨r, hro, rfl⟩ := hp.fontReads i hi
        · exact hr i hi
        · have : c.toInt < 2 ^ 7 := BitVec.toInt_lt
          omega

theorem settle_spec (hv : s.valid = true) (hy : s.y.toNat ≤ s.maxy.toNat) (hm : 0 < s.maxy.toNat) :
  (settle s).x = s.x ∧ (settle s).y.toNat = min s.y.toNat (s.maxy.toNat - 1) ∧
  (settle s).fontReads = s.fontReads ∧
  (settle s).written = if s.y.toNat < s.maxy.toNat then s.written
  else (0, (s.mode.framebufferSize.toNat + 3) / 4) :: s.written := by
  by_cases hlt : s.y.toNat < s.maxy.toNat
  · rw [settle, if_pos (BitVec.lt_def.mpr hlt), if_pos hlt]
    exact ⟨rfl, by omega, rfl, rfl⟩
  · have ho : 1 ≤ s.y := BitVec.le_def.mpr (show 1 ≤ s.y.toNat by omega)
    rw [settle, if_neg fun hy' ↦ hlt (BitVec.lt_def.mp hy'), if_neg hlt, Screen.scroll, if_pos hv]
    refine ⟨rfl, ?_, rfl, rfl⟩
    dsimp only
    rw [BitVec.toNat_sub_of_le ho, show (1 : BitVec 16).toNat = 1 from rfl]
    omega

section Step

variable (h : Ready mode s) (hon : OnScreen s)

include h hon

theorem extent_pos : 0 < mode.extent.columns ∧ 0 < mode.extent.lines := by
  have hx : s.x.toNat < s.maxx.toNat := hon.x
  have hy : s.y.toNat < s.maxy.toNat := hon.y
  rw [← h.maxx, ← h.maxy]
  omega

theorem wrap_ready (f : ℤ → BitVec 8) (c : BitVec 8) : Ready mode (s.place f c).wrap ∧
  (s.place f c).wrap.y.toNat ≤ (s.place f c).wrap.maxy.toNat ∧
  0 < (s.place f c).wrap.maxy.toNat := by
  have hr : Ready mode (s.place f c).wrap := h.of_fixed ((fixed_wrap _).trans (fixed_place s c))
  obtain ⟨-, hl⟩ := wrap_cursor h hon.x hon.y f c
  have hy : s.y.toNat < s.maxy.toNat := hon.y
  rw [h.maxy] at hy
  refine ⟨hr, ?_, by rw [hr.maxy]; omega⟩
  rw [hl, hr.maxy]
  split <;> omega

theorem putChar_settle (f : ℤ → BitVec 8) (c : BitVec 8) :
  s.putChar 2 f c = some (settle (s.place f c).wrap) ∧
  ∀ n t, s.putChar n f c = some t → t = settle (s.place f c).wrap := by
  obtain ⟨hr, hy, hm⟩ := wrap_ready h hon f c
  simpa only [Screen.putChar, if_pos h.valid] using scrollLoop_settle hr.valid hy hm

theorem settle_cursor (f : ℤ → BitVec 8) (c : BitVec 8) :
  (settle (s.place f c).wrap).x.toNat = nextColumn mode.extent s.x.toNat c ∧
  (settle (s.place f c).wrap).y.toNat = nextLine mode.extent s.x.toNat s.y.toNat c := by
  obtain ⟨hr, hle, hm⟩ := wrap_ready h hon f c
  obtain ⟨hc, hl⟩ := wrap_cursor h hon.x hon.y f c
  obtain ⟨hx, hy, -, -⟩ := settle_spec hr.valid hle hm
  have hlt : s.y.toNat < s.maxy.toNat := hon.y
  rw [h.maxy] at hlt
  refine ⟨by rw [hx, hc], ?_⟩
  rw [hy, hl, hr.maxy, nextLine]
  split
  · rfl
  · omega

theorem nextColumn_lt_iff (c : BitVec 8) :
  nextColumn mode.extent s.x.toNat c < mode.extent.columns ↔
  (c = 9 → column s.x.toNat c ≤ mode.extent.columns) := by
  have hx : s.x.toNat < s.maxx.toNat := hon.x
  rw [h.maxx] at hx
  rw [nextColumn]
  split
  next hf =>
    refine iff_of_true (by omega) ?_
    rintro rfl
    exact Or.elim hf (fun hc ↦ absurd hc (by decide)) fun hfu ↦ hfu.le
  next hf =>
    have hne : column s.x.toNat c ≠ mode.extent.columns := fun hfu ↦ hf (.inr hfu)
    by_cases ht : c = 9
    · exact ⟨fun hl _ ↦ hl.le, fun hle ↦ lt_of_le_of_ne (hle ht) hne⟩
    · refine iff_of_true (lt_of_le_of_ne ?_ hne) fun hc ↦ absurd hc ht
      rw [column, if_neg ht]
      exact hx

theorem onScreen_settle_iff (hpp : mode.x.toNat ≤ mode.ppl.toNat) (f : ℤ → BitVec 8)
  (c : BitVec 8) :
  OnScreen (settle (s.place f c).wrap) ↔ Fits mode.extent s.x.toNat s.y.toNat c := by
  obtain ⟨hr, hle, hm⟩ := wrap_ready h hon f c
  obtain ⟨hc, hl⟩ := settle_cursor h hon f c
  obtain ⟨-, -, hre, hw⟩ := settle_spec hr.valid hle hm
  have hs : Ready mode (settle (s.place f c).wrap) :=
    h.of_fixed (fixed_putChar (putChar_settle h hon f c).1)
  have hg := place_fontReads f c hon.fontReads
  have hp := place_written h hon.x hon.y f c hpp hon.written
  rw [h.pixels] at hp
  rw [(wrap_logs _).2] at hre
  rw [(wrap_logs _).1, hr.mode, hr.maxy, (wrap_cursor h hon.x hon.y f c).2] at hw
  have hy : s.y.toNat < s.maxy.toNat := hon.y
  rw [h.maxy] at hy
  constructor
  · intro ht
    refine ⟨hg.mp (hre ▸ ht.fontReads), (nextColumn_lt_iff h hon c).mp ?_, ?_⟩
    · rw [← hc, ← hs.maxx]
      exact ht.x
    · intro hf hla
      rw [if_pos hf, if_neg (by omega)] at hw
      have hh := ht.written _ (hw ▸ mem_cons_self)
      rw [hs.pixels] at hh
      have hsi : mode.extent.size = mode.framebufferSize.toNat := rfl
      omega
  · intro hfi
    refine ⟨?_, ?_, ?_, hre ▸ hg.mpr hfi.glyph⟩
    · rw [BitVec.lt_def, hc, hs.maxx]
      exact (nextColumn_lt_iff h hon c).mpr hfi.tab
    · rw [BitVec.lt_def, hl, hs.maxy, nextLine]
      split <;> omega
    · rw [hs.pixels, hw]
      by_cases hf : feedsLine mode.extent s.x.toNat c
      · rw [if_pos hf]
        split
        next => exact hp
        next hla =>
          have hsi := hfi.scroll hf (by omega)
          have heq : mode.extent.size = mode.framebufferSize.toNat := rfl
          refine forall_mem_cons.mpr ⟨?_, hp⟩
          dsimp only
          omega
      · rw [if_neg hf, if_pos hy]
        exact hp

end Step

theorem staysOnScreen_iff_allFit (hp : mode.x.toNat ≤ mode.ppl.toNat) (cs : List (BitVec 8))
  (h : Ready mode s) (ho : OnScreen s) :
  StaysOnScreen font s cs ↔ AllFit mode.extent s.x.toNat s.y.toNat cs := by
  induction cs generalizing s with
  | nil => exact Iff.rfl
  | cons c cs ih =>
    obtain ⟨hca, hu⟩ := putChar_settle h ho font c
    have hre := h.of_fixed (fixed_putChar hca)
    obtain ⟨hc, hl⟩ := settle_cursor h ho font c
    have hf := onScreen_settle_iff h ho hp font c
    constructor
    · rintro ⟨rounds, t, hpu, ht, hr⟩
      obtain rfl := hu rounds t hpu
      refine ⟨hf.mp ht, ?_⟩
      rw [← hc, ← hl]
      exact (ih hre ht).mp hr
    · rintro ⟨hfi, hr⟩
      have ht := hf.mpr hfi
      refine ⟨2, _, hca, ht, (ih hre ht).mpr ?_⟩
      rw [hc, hl]
      exact hr

theorem initializeScreen_ready (m : VideoMode) (f b : ℕ → BitVec 32) :
  Ready m (.initializeScreen m f b) := by
  refine ⟨rfl, ?_, ?_, rfl⟩
  · exact BitVec.toNat_setWidth ..
  · exact BitVec.toNat_setWidth ..

theorem staysOnScreen_iff (mode : VideoMode) (hppl : mode.x.toNat ≤ mode.ppl.toNat)
    (framebuffer backbuffer : ℕ → BitVec 32) (font : ℤ → BitVec 8) (cs : List (BitVec 8)) :
    StaysOnScreen font (.initializeScreen mode framebuffer backbuffer) cs ↔
      cs = [] ∨ 0 < mode.extent.columns ∧ 0 < mode.extent.lines ∧ AllFit mode.extent 0 0 cs := by
  have hr := initializeScreen_ready mode framebuffer backbuffer
  generalize hs : Screen.initializeScreen mode framebuffer backbuffer = s at hr
  cases cs with
  | nil => exact iff_of_true trivial (.inl rfl)
  | cons c cs =>
    rw [or_iff_right (cons_ne_nil c cs)]
    by_cases hp : 0 < mode.extent.columns ∧ 0 < mode.extent.lines
    · have hon : OnScreen s := by
        refine ⟨?_, ?_, ?_, ?_⟩
        · rw [BitVec.lt_def, hr.maxx, ← hs]
          exact hp.1
        · rw [BitVec.lt_def, hr.maxy, ← hs]
          exact hp.2
        · rw [← hs]
          exact forall_mem_nil _
        · rw [← hs]
          exact forall_mem_nil _
      rw [staysOnScreen_iff_allFit hppl _ hr hon, ← hs, and_iff_right hp.1, and_iff_right hp.2]
      rfl
    · refine iff_of_false ?_ fun h ↦ hp ⟨h.1, h.2.1⟩
      rintro ⟨rounds, t, hpu, ht, -⟩
      exact hp (extent_pos (hr.of_fixed (fixed_putChar hpu)) ht)

def blank (mode : VideoMode) : Screen := .initializeScreen mode (fun _ ↦ 0) fun _ ↦ 0

def twoLines : VideoMode := { framebufferSize := 8192, x := 64, y := 32, ppl := 64 }

theorem staysOnScreen_twoLines : StaysOnScreen (fun _ ↦ 0) (blank twoLines) [72, 105, 10, 9] :=
  (staysOnScreen_iff twoLines (by decide) _ _ _ _).mpr (.inr (by decide))

def svga : VideoMode := { framebufferSize := 1920000, x := 800, y := 600, ppl := 800 }

def oneCharacter : VideoMode := { framebufferSize := 544, x := 8, y := 17, ppl := 8 }

theorem blank_leavesScreen :
    (∃ t : Screen, (List.replicate 13 (9 : BitVec 8)).foldlM (Screen.putChar 1 fun _ ↦ 0)
      (blank svga) = some t ∧ t.maxx = 100 ∧ t.x = 104) ∧
    (∃ t, (blank svga).putChar 1 (fun _ ↦ 0) 0xe4 = some t ∧ -448 ∈ t.fontReads) ∧
    ∃ t, (blank oneCharacter).putChar 2 (fun _ ↦ 0) 10 = some t ∧ (0, 136) ∈ t.written ∧
      t.maxy.toNat * 16 * t.mode.ppl.toNat = 128 := by
  refine ⟨⟨_, rfl, rfl, rfl⟩, ?_, _, rfl, mem_cons_self, rfl⟩
  have hr : (0xe4 : BitVec 8).toInt * 16 = -448 := by decide
  have hp : (blank svga).putChar 1 (fun _ ↦ 0) 0xe4 =
    some ((blank svga).place (fun _ ↦ 0) 0xe4).wrap := rfl
  refine ⟨_, hp, ?_⟩
  rw [(wrap_logs _).2, ← hr, Screen.place, if_neg (by decide), if_neg (by decide)]
  have hm := mem_fontReads_drawGlyph (fun _ ↦ 0) (blank svga) 0xe4
  generalize (blank svga).drawGlyph (fun _ ↦ 0) 0xe4 = drawn at hm
  exact hm

end ReaverOS.Kernel.BootScreen
