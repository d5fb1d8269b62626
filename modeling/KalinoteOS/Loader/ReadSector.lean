import KalinoteOS.Loader.Machine

/-! # `Func_ReadOneSector`

The number of a sector becomes a cylinder, a head and a sector of the track for the BIOS. The count
of sectors waits in a byte of the stack meanwhile.
-/
namespace KalinoteOS.Loader
open Lib (Bytes)
set_option autoImplicit false

/-- `BPB_SecPerTrk` and `BS_DrvNum` of `fat12.inc`. -/
def secPerTrk : Byte := 18
def drvNum : Byte := 0

namespace Machine

/-- Up to `mov byte [bp - 2], cl`. -/
def enter (s : Machine) : Machine :=
  let s := s.push s.bp
  let s := s.setBp (BitVec.ofNat 16 s.sp)
  let s := s.setSp (s.sp - 2)
  s.setMem (Function.update s.mem (s.bp - 2).toNat (low s.cx))

/-- From `inc ah` to `and dh, 1`. -/
def geometry (s : Machine) : Machine :=
  let s := s.setAx (word (high s.ax + 1) (low s.ax))
  let s := s.setCx (word (high s.cx) (high s.ax))
  let s := s.setDx (word (low s.ax) (low s.dx))
  let s := s.setAx (word (high s.ax) (low s.ax >>> 1))
  let s := s.setCx (word (low s.ax) (low s.cx))
  s.setDx (word (high s.dx &&& 1) (low s.dx))

/-- From `push bx` to `pop bx`. -/
def chs (s : Machine) : Option Machine := do
  let s := s.push s.bx
  s.data
  let s := s.setBx (word (high s.bx) secPerTrk)
  let s ← s.div8 (low s.bx)
  let s := s.geometry
  return (s.setBx s.top).drop 2

/-- From `mov dl, [BS_DrvNum]` to `int 13h`; `jc` is not taken. -/
def readDisk (disk : Disk) (s : Machine) : Option Machine := do
  s.data
  let s := s.setDx (word (high s.dx) drvNum)
  let s := s.setAx (word 2 (low s.ax))
  let s := s.setAx (word (high s.ax) (s.mem (s.bp - 2).toNat))
  s.int13 disk

end Machine

def funcReadOneSector (disk : Disk) (s : Machine) : Option Machine := do
  let s ← s.enter.chs
  let s ← s.readDisk disk
  let s := s.drop 2
  return (s.setBp s.top).drop 2

/-! ## What it reads -/

/-- The registers and variables that a read leaves alone. -/
structure Kept (s t : Machine) : Prop where
  eaxHigh : t.eaxHigh = s.eaxHigh
  bx : t.bx = s.bx
  sp : t.sp = s.sp
  bp : t.bp = s.bp
  esi : t.esi = s.esi
  edi : t.edi = s.edi
  ds : t.ds = s.ds
  es : t.es = s.es
  fs : t.fs = s.fs
  odd : t.odd = s.odd
  offset : t.offsetOfKernelFileCount = s.offsetOfKernelFileCount

namespace Kept
variable {s t u : Machine}

theorem trans (h : Kept s t) (h' : Kept t u) : Kept s u :=
  ⟨h'.eaxHigh.trans h.eaxHigh, h'.bx.trans h.bx, h'.sp.trans h.sp, h'.bp.trans h.bp, h'.esi.trans h.esi,
    h'.edi.trans h.edi, h'.ds.trans h.ds, h'.es.trans h.es, h'.fs.trans h.fs, h'.odd.trans h.odd,
    h'.offset.trans h.offset⟩

theorem setAx (s : Machine) (v : Word) : Kept s (s.setAx v) :=
  ⟨rfl, rfl, rfl, rfl, rfl, rfl, rfl, rfl, rfl, rfl, rfl⟩

theorem setDx (s : Machine) (v : Word) : Kept s (s.setDx v) :=
  ⟨rfl, rfl, rfl, rfl, rfl, rfl, rfl, rfl, rfl, rfl, rfl⟩

theorem setMem (s : Machine) (m : Bytes) : Kept s (s.setMem m) :=
  ⟨rfl, rfl, rfl, rfl, rfl, rfl, rfl, rfl, rfl, rfl, rfl⟩

end Kept

section
variable {s : Machine} (disk : Disk)

theorem data_eq (hDs : s.ds = loaderSegment) : s.data = some () := if_pos hDs

theorem frame_slot (hLow : 4 ≤ s.sp) (hHigh : s.sp < 65536) : (s.enter.bp - 2).toNat = s.sp - 4 := by
  show (BitVec.ofNat 16 (s.sp - 2) - 2#16).toNat = s.sp - 4
  rw [BitVec.toNat_sub, BitVec.toNat_ofNat, BitVec.toNat_ofNat]
  omega

theorem enter_mem (hLow : 4 ≤ s.sp) (hHigh : s.sp < 65536) :
    s.enter.mem = Function.update (s.push s.bp).mem (s.sp - 4) (low s.cx) := by
  rw [← frame_slot hLow hHigh]
  rfl

theorem geometry_cx : s.geometry.cx = word (low s.ax >>> 1) (high s.ax + 1) := by
  simp [Machine.geometry]

theorem geometry_dx : s.geometry.dx = word (low s.ax &&& 1) (low s.dx) := by
  simp [Machine.geometry]

/-- The quotient and the remainder of the division by 18. -/
theorem chs_spec (hDs : s.ds = loaderSegment) (hSp : 2 ≤ s.sp) (hAx : s.ax.toNat < 4608) :
    ∃ t, s.chs = some t ∧ Kept s t ∧ t.mem = (s.push s.bx).mem ∧
      low t.cx = BitVec.ofNat 8 (s.ax.toNat % 18) + 1 ∧
      high t.cx = BitVec.ofNat 8 (s.ax.toNat / 18) >>> 1 ∧
      high t.dx = BitVec.ofNat 8 (s.ax.toNat / 18) &&& 1 := by
  have hData : (s.push s.bx).data = some () := data_eq hDs
  have hEighteen : secPerTrk.toNat = 18 := rfl
  have hDiv : ((s.push s.bx).setBx (word (high s.bx) secPerTrk)).div8 secPerTrk = some
      (((s.push s.bx).setBx (word (high s.bx) secPerTrk)).setAx
        (word (BitVec.ofNat 8 (s.ax.toNat % 18)) (BitVec.ofNat 8 (s.ax.toNat / 18)))) := by
    refine Machine.div8_eq (by decide) ?_
    rw [hEighteen]
    show s.ax.toNat / 18 < 256
    omega
  obtain ⟨u, hu⟩ : ∃ u, u = (((s.push s.bx).setBx (word (high s.bx) secPerTrk)).setAx
    (word (BitVec.ofNat 8 (s.ax.toNat % 18)) (BitVec.ofNat 8 (s.ax.toNat / 18)))).geometry := ⟨_, rfl⟩
  have hRun : s.chs = some ((u.setBx u.top).drop 2) := by
    unfold Machine.chs
    dsimp only
    rw [hData, Option.bind_eq_bind, Option.bind_some, Machine.setBx_bx, low_word, Machine.push_bx, hDiv,
      Option.bind_eq_bind, Option.bind_some, hu]
    rfl
  have hTop : u.top = s.bx := by
    rw [hu]
    exact top_of_push rfl fun _ _ _ => rfl
  have hCx : u.cx = word (BitVec.ofNat 8 (s.ax.toNat / 18) >>> 1) (BitVec.ofNat 8 (s.ax.toNat % 18) + 1) := by
    rw [hu, geometry_cx, Machine.setAx_ax, low_word, high_word]
  have hDx : u.dx = word (BitVec.ofNat 8 (s.ax.toNat / 18) &&& 1) (low s.dx) := by
    rw [hu, geometry_dx, Machine.setAx_ax, low_word]
    rfl
  have hSpBack : s.sp - 2 + 2 = s.sp := by omega
  refine ⟨_, hRun, ?_, ?_, ?_, ?_, ?_⟩
  · subst hu
    exact ⟨rfl, hTop, hSpBack, rfl, rfl, rfl, rfl, rfl, rfl, rfl, rfl⟩
  · subst hu
    rfl
  · rw [Machine.drop_cx, Machine.setBx_cx, hCx, low_word]
  · rw [Machine.drop_cx, Machine.setBx_cx, hCx, high_word]
  · rw [Machine.drop_dx, Machine.setBx_dx, hDx, high_word]

/-- The BIOS finds the sector again that the division has taken apart. -/
theorem readDisk_spec {lba : Nat} {count : Byte} (hDs : s.ds = loaderSegment) (hLba : lba < 4608)
    (hSector : low s.cx = BitVec.ofNat 8 (lba % 18) + 1)
    (hCylinder : high s.cx = BitVec.ofNat 8 (lba / 18) >>> 1)
    (hHead : high s.dx = BitVec.ofNat 8 (lba / 18) &&& 1) (hSlot : s.mem (s.bp - 2).toNat = count)
    (hTrack : lba % 18 + count.toNat ≤ 18) :
    ∃ t, s.readDisk disk = some t ∧ Kept s t ∧
      t.mem = disk.transfer lba count.toNat (physical s.es s.bx.toNat) s.mem := by
  have hSectorNat : (low s.cx).toNat = lba % 18 + 1 := by
    rw [hSector, BitVec.toNat_add, BitVec.toNat_ofNat]
    show (lba % 18 % 256 + 1) % 256 = lba % 18 + 1
    omega
  have hCylinderNat : (high s.cx).toNat = lba / 36 := by
    rw [hCylinder, BitVec.toNat_ushiftRight, BitVec.toNat_ofNat, Nat.shiftRight_eq_div_pow]
    omega
  have hHeadNat : (high s.dx).toNat = lba / 18 % 2 := by
    rw [hHead, BitVec.toNat_and, BitVec.toNat_ofNat]
    show lba / 18 % 256 &&& 1 = _
    rw [Nat.and_one_is_mod]
    omega
  have hFirst : ((lba / 36 + (lba % 18 + 1) / 64 * 256) * 2 + lba / 18 % 2) * 18 +
      ((lba % 18 + 1) % 64 - 1) = lba := by omega
  obtain ⟨u, hu⟩ : ∃ u, u = ((s.setDx (word (high s.dx) drvNum)).setAx (word 2 (low s.ax))).setAx
    (word 2 count) := ⟨_, rfl⟩
  have hAx : u.ax = word 2 count := by rw [hu, Machine.setAx_ax]
  have hDx : u.dx = word (high s.dx) drvNum := by
    rw [hu, Machine.setAx_dx, Machine.setAx_dx, Machine.setDx_dx]
  have hCx : u.cx = s.cx := by rw [hu, Machine.setAx_cx, Machine.setAx_cx, Machine.setDx_cx]
  have hKept : Kept s u := by
    rw [hu]
    exact ((Kept.setDx s _).trans (Kept.setAx _ _)).trans (Kept.setAx _ _)
  have hMem : u.mem = s.mem := by
    funext a
    rw [hu, Machine.setAx_mem, Machine.setAx_mem, Machine.setDx_mem]
  have hRun : s.readDisk disk = u.int13 disk := by
    unfold Machine.readDisk
    dsimp only
    rw [data_eq hDs, Option.bind_eq_bind, Option.bind_some, hu]
    simp only [Machine.setAx_ax, Machine.setDx_ax, Machine.setAx_bp, Machine.setDx_bp, Machine.setAx_mem,
      Machine.setDx_mem, high_word, hSlot]
  have hReady : high u.ax = 2 ∧ low u.dx = 0 ∧ (high u.dx).toNat < 2 ∧ 1 ≤ (low u.cx).toNat % 64 ∧
      (low u.cx).toNat % 64 + (low u.ax).toNat ≤ 19 := by
    rw [hAx, hDx, hCx, high_word, high_word, low_word, low_word, hHeadNat, hSectorNat]
    exact ⟨rfl, rfl, by omega, by omega, by omega⟩
  have hDone : u.int13 disk = some ((u.setAx (word 0 count)).setMem
      (disk.transfer lba count.toNat (physical s.es s.bx.toNat) s.mem)) := by
    unfold Machine.int13
    dsimp only
    rw [if_pos hReady, hAx, hDx, hCx, high_word, low_word, hSectorNat, hCylinderNat, hHeadNat, hFirst,
      hKept.es, hKept.bx, hMem]
  exact ⟨_, hRun.trans hDone, (hKept.trans (Kept.setAx _ _)).trans (Kept.setMem _ _), rfl⟩

/-- `cl` sectors from the sector `ax` on are read to `es:bx`, and the stack is as it was. -/
theorem funcReadOneSector_spec (hDs : s.ds = loaderSegment) (hLow : 6 ≤ s.sp) (hHigh : s.sp < 65536)
    (hAx : s.ax.toNat < 4608) (hTrack : s.ax.toNat % 18 + (low s.cx).toNat ≤ 18)
    (hDest : s.sp ≤ physical s.es s.bx.toNat) :
    ∃ t, funcReadOneSector disk s = some t ∧ Kept s t ∧ ∀ a, s.sp ≤ a →
      t.mem a = disk.transfer s.ax.toNat (low s.cx).toNat (physical s.es s.bx.toNat) s.mem a := by
  have hFour : 4 ≤ s.sp := by omega
  have hEnterSp : s.enter.sp = s.sp - 4 := by
    show s.sp - 2 - 2 = s.sp - 4
    omega
  obtain ⟨t₁, hChs, hKept₁, hMem₁, hSector, hCylinder, hHead⟩ := chs_spec (s := s.enter) hDs (by omega) hAx
  -- What lies above the frame is still the caller's.
  have hAbove₁ : ∀ a, s.sp - 4 ≤ a → t₁.mem a = s.enter.mem a := by
    intro a ha
    rw [hMem₁]
    exact push_mem _ (by omega) (by omega)
  have hSlot : t₁.mem (t₁.bp - 2).toNat = low s.cx := by
    rw [hKept₁.bp, frame_slot hFour hHigh, hAbove₁ _ (Nat.le_refl _), enter_mem hFour hHigh,
      Function.update_self]
  obtain ⟨t₂, hRead, hKept₂, hMem₂⟩ := readDisk_spec disk (hKept₁.ds.trans hDs) hAx hSector
    hCylinder hHead hSlot hTrack
  have hDest₁ : physical t₁.es t₁.bx.toNat = physical s.es s.bx.toNat := by
    rw [hKept₁.es, hKept₁.bx]
    rfl
  have hSp₂ : t₂.sp = s.sp - 4 := by rw [hKept₂.sp, hKept₁.sp, hEnterSp]
  have hAbove₂ : ∀ a, s.sp - 2 ≤ a → t₂.mem a =
      disk.transfer s.ax.toNat (low s.cx).toNat (physical s.es s.bx.toNat) (s.push s.bp).mem a := by
    intro a ha
    rw [hMem₂, hDest₁]
    unfold Disk.transfer
    rw [hAbove₁ a (by omega), enter_mem hFour hHigh, Function.update_of_ne (by omega)]
  have hTop : (t₂.drop 2).top = s.bp := by
    have hBack : (t₂.drop 2).sp = s.sp - 2 := by
      rw [Machine.drop_sp, hSp₂]
      omega
    refine top_of_push hBack fun a hLo hHi => ?_
    rw [Machine.drop_mem, hAbove₂ a hLo, transfer_other (Or.inl (by omega))]
  refine ⟨((t₂.drop 2).setBp s.bp).drop 2, ?_, ?_, fun a ha => ?_⟩
  · rw [← hTop]
    exact (run_bind hChs).trans (run_bind hRead)
  · have hBack : t₂.sp + 2 + 2 = s.sp := by omega
    exact ⟨hKept₂.eaxHigh.trans hKept₁.eaxHigh, hKept₂.bx.trans hKept₁.bx, hBack, rfl,
      hKept₂.esi.trans hKept₁.esi, hKept₂.edi.trans hKept₁.edi, hKept₂.ds.trans hKept₁.ds,
      hKept₂.es.trans hKept₁.es, hKept₂.fs.trans hKept₁.fs, hKept₂.odd.trans hKept₁.odd,
      hKept₂.offset.trans hKept₁.offset⟩
  · show t₂.mem a = _
    rw [hAbove₂ a (by omega)]
    unfold Disk.transfer
    rw [push_mem s.bp (by omega) ha]

end

end KalinoteOS.Loader
