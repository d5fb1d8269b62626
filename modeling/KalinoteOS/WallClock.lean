import Mathlib.Data.BitVec
import Mathlib.Logic.Function.Iterate

/-! # The wall clock

`get_cmos_time` reads one register after the other while the clock goes on, and reads them again when
the seconds have changed meanwhile. The calendar gives the length of a month of a year; registers hold
BCD numbers.
-/
namespace KalinoteOS.WallClock
set_option autoImplicit false

abbrev Byte := BitVec 8

structure Clock where
  second : Fin 60
  minute : Fin 60
  hour : Fin 24
  day : Nat
  month : Nat
  year : Nat
  deriving DecidableEq, Repr

abbrev Calendar := Nat → Nat → Nat

namespace Clock

def nextMonth (c : Clock) : Clock :=
  if c.month < 12 then { c with month := c.month + 1 } else { c with month := 1, year := c.year + 1 }

def nextDay (days : Calendar) (c : Clock) : Clock :=
  if c.day < days c.year c.month then { c with day := c.day + 1 } else nextMonth { c with day := 1 }

def nextHour (days : Calendar) (c : Clock) : Clock :=
  if c.hour.val < 23 then { c with hour := c.hour + 1 } else nextDay days { c with hour := 0 }

def nextMinute (days : Calendar) (c : Clock) : Clock :=
  if c.minute.val < 59 then { c with minute := c.minute + 1 } else nextHour days { c with minute := 0 }

/-- One second. -/
def tick (days : Calendar) (c : Clock) : Clock :=
  if c.second.val < 59 then { c with second := c.second + 1 } else nextMinute days { c with second := 0 }

/-- The clock `n` seconds later. -/
def after (days : Calendar) (c : Clock) (n : Nat) : Clock := (tick days)^[n] c

end Clock

/-- What `BCD2BIN` turns back into `n`. -/
def bcd (n : Nat) : Byte := BitVec.ofNat 8 (n / 10 * 16 + n % 10)

def Clock.register (c : Clock) (addr : Byte) : Byte :=
  if addr = 0x00 then bcd c.second.val
  else if addr = 0x02 then bcd c.minute.val
  else if addr = 0x04 then bcd c.hour.val
  else if addr = 0x07 then bcd c.day
  else if addr = 0x08 then bcd c.month
  else if addr = 0x09 then bcd (c.year % 100)
  else if addr = 0x32 then bcd (c.year / 100)
  else 0

structure Time where
  second : Nat
  minute : Nat
  hour : Nat
  day : Nat
  month : Nat
  year : Nat
  deriving DecidableEq, Repr

/-- The fields as the clock shows them at one moment. -/
def Clock.reading (c : Clock) : Time where
  second := (c.register 0x00).toNat
  minute := (c.register 0x02).toNat
  hour := (c.register 0x04).toNat
  day := (c.register 0x07).toNat
  month := (c.register 0x08).toNat
  year := (c.register 0x09).toNat + (c.register 0x32).toNat * 0x100

/-- The clock, the register that port 0x70 has selected, the seconds since the call began and the
reads in it. -/
structure Cmos where
  clock : Clock
  index : Byte
  elapsed : Nat
  reads : Nat

/-! ## `get_cmos_time` -/

section
variable (days : Calendar) (gaps : Nat → Nat)

/-- `gaps k` seconds pass before read `k`; the last gap is the one before the call returns. -/
def Cmos.wait (s : Cmos) : Cmos where
  clock := s.clock.after days (gaps s.reads)
  index := s.index
  elapsed := s.elapsed + gaps s.reads
  reads := s.reads + 1

/-- `io_out8(0x70, value)`; the highest bit masks the NMI. -/
def Cmos.out70 (s : Cmos) (value : Byte) : Cmos := { s with index := value &&& 0x7f }

/-- `io_in8(0x71)` -/
def Cmos.in71 (s : Cmos) : Byte × Cmos :=
  let s := s.wait days gaps
  (s.clock.register s.index, s)

def cmosRead (s : Cmos) (addr : Byte) : Byte × Cmos := (s.out70 (0x80 ||| addr)).in71 days gaps

/-- The body of the loop. -/
def readTime (s : Cmos) : Time × Cmos :=
  let (low, s) := cmosRead days gaps s 0x09
  let (century, s) := cmosRead days gaps s 0x32
  let (month, s) := cmosRead days gaps s 0x08
  let (day, s) := cmosRead days gaps s 0x07
  let (hour, s) := cmosRead days gaps s 0x04
  let (minute, s) := cmosRead days gaps s 0x02
  let (second, s) := cmosRead days gaps s 0x00
  (⟨second.toNat, minute.toNat, hour.toNat, day.toNat, month.toNat, low.toNat + century.toNat * 0x100⟩, s)

def getCmosTime : Nat → Cmos → Option (Time × Cmos)
  | 0, _ => none
  | fuel + 1, s =>
    let (time, s) := readTime days gaps s
    let (again, s) := cmosRead days gaps s 0x00
    if time.second ≠ again.toNat then
      getCmosTime fuel s
    else
      some (time, (s.wait days gaps).out70 0x00)

/-! ## The moments of the reads -/

/-- The seconds that pass before the first `k` reads. -/
def passed : Nat → Nat
  | 0 => 0
  | k + 1 => passed k + gaps k

variable (c : Clock)

/-- The clock at read `k`. -/
def clockAt (k : Nat) : Clock := c.after days (passed gaps (k + 1))

/-- The state before read `k` of a call that began with the clock `c`. -/
structure Before (k : Nat) (s : Cmos) : Prop where
  clock : s.clock = c.after days (passed gaps k)
  elapsed : s.elapsed = passed gaps k
  reads : s.reads = k

/-- What round `r` of the loop stores. -/
def stored (r : Nat) : Time where
  second := ((clockAt days gaps c (8 * r + 6)).register 0x00).toNat
  minute := ((clockAt days gaps c (8 * r + 5)).register 0x02).toNat
  hour := ((clockAt days gaps c (8 * r + 4)).register 0x04).toNat
  day := ((clockAt days gaps c (8 * r + 3)).register 0x07).toNat
  month := ((clockAt days gaps c (8 * r + 2)).register 0x08).toNat
  year := ((clockAt days gaps c (8 * r)).register 0x09).toNat +
    ((clockAt days gaps c (8 * r + 1)).register 0x32).toNat * 0x100

end

section
variable {days : Calendar} {gaps : Nat → Nat} {c : Clock} {s : Cmos} {k r : Nat}

theorem Before.wait (h : Before days gaps c k s) : Before days gaps c (k + 1) (s.wait days gaps) := by
  refine ⟨?_, ?_, congrArg (· + 1) h.reads⟩
  · have hSum : passed gaps (k + 1) = gaps k + passed gaps k := Nat.add_comm _ _
    show s.clock.after days (gaps s.reads) = _
    rw [h.clock, h.reads, hSum]
    exact (Function.iterate_add_apply _ _ _ _).symm
  · rw [Cmos.wait, h.elapsed, h.reads, passed]

theorem Before.out70 (h : Before days gaps c k s) (value : Byte) :
    Before days gaps c k (s.out70 value) := ⟨h.clock, h.elapsed, h.reads⟩

theorem cmosRead_spec (h : Before days gaps c k s) (addr : Byte) (hAddr : (0x80 ||| addr) &&& 0x7f = addr) :
    ∃ s', cmosRead days gaps s addr = ((clockAt days gaps c k).register addr, s') ∧
      Before days gaps c (k + 1) s' := by
  have hNext := (h.out70 (0x80 ||| addr)).wait
  refine ⟨_, ?_, hNext⟩
  have hIndex : ((s.out70 (0x80 ||| addr)).wait days gaps).index = addr := hAddr
  rw [cmosRead, Cmos.in71, hNext.clock, hIndex]
  rfl

theorem readTime_spec (h : Before days gaps c (8 * r) s) :
    ∃ s', readTime days gaps s = (stored days gaps c r, s') ∧ Before days gaps c (8 * r + 7) s' := by
  obtain ⟨s₁, hLow, h₁⟩ := cmosRead_spec h 0x09 (by decide)
  obtain ⟨s₂, hCentury, h₂⟩ := cmosRead_spec h₁ 0x32 (by decide)
  obtain ⟨s₃, hMonth, h₃⟩ := cmosRead_spec h₂ 0x08 (by decide)
  obtain ⟨s₄, hDay, h₄⟩ := cmosRead_spec h₃ 0x07 (by decide)
  obtain ⟨s₅, hHour, h₅⟩ := cmosRead_spec h₄ 0x04 (by decide)
  obtain ⟨s₆, hMinute, h₆⟩ := cmosRead_spec h₅ 0x02 (by decide)
  obtain ⟨s₇, hSecond, h₇⟩ := cmosRead_spec h₆ 0x00 (by decide)
  refine ⟨s₇, ?_, h₇⟩
  rw [readTime, hLow]
  dsimp only
  rw [hCentury]
  dsimp only
  rw [hMonth]
  dsimp only
  rw [hDay]
  dsimp only
  rw [hHour]
  dsimp only
  rw [hMinute]
  dsimp only
  rw [hSecond]
  rfl

/-- A call that returns has stored what its last round has read. -/
theorem getCmosTime_spec {fuel : Nat} {time : Time} {s' : Cmos} (h : Before days gaps c (8 * r) s)
    (hRun : getCmosTime days gaps fuel s = some (time, s')) :
    ∃ r', time = stored days gaps c r' ∧ Before days gaps c (8 * r' + 9) s' := by
  induction fuel generalizing r s with
  | zero => cases hRun
  | succ fuel ih =>
    obtain ⟨s₁, hRead, h₁⟩ := readTime_spec h
    obtain ⟨s₂, hAgain, h₂⟩ := cmosRead_spec h₁ 0x00 (by decide)
    rw [getCmosTime, hRead] at hRun
    dsimp only at hRun
    rw [hAgain] at hRun
    dsimp only at hRun
    split at hRun
    · exact ih (r := r + 1) h₂ hRun
    · cases hRun
      exact ⟨r, rfl, h₂.wait.out70 0x00⟩

end

/-! ## Torn readings -/

section
variable (days : Calendar) (gaps : Nat → Nat) (c : Clock)

/-- The clock shows `time` at some moment of a call that begins with `c` and takes `elapsed` seconds. -/
def Untorn (elapsed : Nat) (time : Time) : Prop := ∃ n, n ≤ elapsed ∧ time = (c.after days n).reading

/-- No carry reaches a register of round `r` between its own read, which is number `i` of the round,
and the first read of the seconds. -/
def Steady (r : Nat) : Prop :=
  ∀ i addr, (i, addr) ∈ [(0, 0x09), (1, 0x32), (2, 0x08), (3, 0x07), (4, 0x04), (5, (0x02 : Byte))] →
    (clockAt days gaps c (8 * r + i)).register addr = (clockAt days gaps c (8 * r + 6)).register addr

end

section
variable {days : Calendar} {gaps : Nat → Nat} {c : Clock}

theorem passed_le {k l : Nat} (h : k ≤ l) : passed gaps k ≤ passed gaps l := by
  induction l, h using Nat.le_induction with
  | base => exact Nat.le_refl _
  | succ l _ ih => exact Nat.le_trans ih (Nat.le_add_right _ _)

theorem second_tick (c : Clock) : (c.tick days).second.val = (c.second.val + 1) % 60 := by
  have hLt := c.second.isLt
  unfold Clock.tick
  split
  · rw [Fin.val_add]
    rfl
  · have hCarry : ∀ d : Clock, (d.nextMinute days).second = d.second := by
      intro d
      unfold Clock.nextMinute Clock.nextHour Clock.nextDay Clock.nextMonth
      repeat' split
      all_goals rfl
    rw [hCarry]
    show (0 : Nat) = _
    omega

theorem second_after (c : Clock) (n : Nat) : (c.after days n).second.val = (c.second.val + n) % 60 := by
  induction n with
  | zero => exact (Nat.mod_eq_of_lt c.second.isLt).symm
  | succ n ih =>
    have hNext : c.after days (n + 1) = (c.after days n).tick days := Function.iterate_succ_apply' _ _ _
    rw [hNext, second_tick, ih]
    omega

theorem bcd_inj {a b : Nat} (ha : a < 100) (hb : b < 100) (h : bcd a = bcd b) : a = b := by
  have hNat := congrArg BitVec.toNat h
  rw [bcd, bcd, BitVec.toNat_ofNat, BitVec.toNat_ofNat] at hNat
  omega

/-- Less than a minute apart, the seconds tell the moments apart. -/
theorem moment_of_second {m n : Nat} (hm : m < 60) (hn : n < 60)
    (h : (c.after days m).register 0x00 = (c.after days n).register 0x00) : m = n := by
  have hSecond : (c.after days m).second.val = (c.after days n).second.val := by
    refine bcd_inj ?_ ?_ h
    · exact Nat.lt_trans (Fin.isLt _) (by decide)
    · exact Nat.lt_trans (Fin.isLt _) (by decide)
  rw [second_after, second_after] at hSecond
  omega

theorem year_inj {low century low' century' : Byte}
    (h : low.toNat + century.toNat * 0x100 = low'.toNat + century'.toNat * 0x100) :
    low = low' ∧ century = century' := by
  have hLow := low.isLt
  have hLow' := low'.isLt
  exact ⟨BitVec.eq_of_toNat_eq (by omega), BitVec.eq_of_toNat_eq (by omega)⟩

/-- A round without such a carry stores what the clock shows when the seconds are read. -/
theorem steady_iff {r : Nat} :
    Steady days gaps c r ↔ stored days gaps c r = (clockAt days gaps c (8 * r + 6)).reading := by
  constructor
  · intro h
    have hLow := h 0 0x09 (by decide)
    have hCentury := h 1 0x32 (by decide)
    have hMonth := h 2 0x08 (by decide)
    have hDay := h 3 0x07 (by decide)
    have hHour := h 4 0x04 (by decide)
    have hMinute := h 5 0x02 (by decide)
    rw [Nat.add_zero] at hLow
    rw [stored, hLow, hCentury, hMonth, hDay, hHour, hMinute]
    rfl
  · intro h
    obtain ⟨-, hMinute, hHour, hDay, hMonth, hYear⟩ := Time.mk.inj h
    obtain ⟨hLow, hCentury⟩ := year_inj hYear
    intro i addr hMem
    simp only [List.mem_cons, Prod.mk.injEq, List.not_mem_nil, or_false] at hMem
    obtain ⟨rfl, rfl⟩ | ⟨rfl, rfl⟩ | ⟨rfl, rfl⟩ | ⟨rfl, rfl⟩ | ⟨rfl, rfl⟩ | ⟨rfl, rfl⟩ := hMem
    · exact hLow
    · exact hCentury
    · exact BitVec.eq_of_toNat_eq hMonth
    · exact BitVec.eq_of_toNat_eq hDay
    · exact BitVec.eq_of_toNat_eq hHour
    · exact BitVec.eq_of_toNat_eq hMinute

/-- The state in which a call begins. -/
def Cmos.start (c : Clock) (index : Byte) : Cmos := ⟨c, index, 0, 0⟩

theorem before_start (index : Byte) : Before days gaps c (8 * 0) (Cmos.start c index) := ⟨rfl, rfl, rfl⟩

/-- What is stored is the clock at one moment if no carry reaches a register in the last round between
its own read and that of the seconds; in a call of less than a minute, only then. -/
theorem getCmosTime_untorn {index : Byte} {fuel : Nat} {time : Time} {s : Cmos}
    (hRun : getCmosTime days gaps fuel (Cmos.start c index) = some (time, s)) :
    ∃ r, s.reads = 8 * r + 9 ∧
      (Steady days gaps c r → Untorn days c s.elapsed time) ∧
      (s.elapsed < 60 → (Untorn days c s.elapsed time ↔ Steady days gaps c r)) := by
  obtain ⟨r, rfl, hEnd⟩ := getCmosTime_spec (before_start index) hRun
  have hIn : passed gaps (8 * r + 6 + 1) ≤ s.elapsed := by
    rw [hEnd.elapsed]
    exact passed_le (by omega)
  have hEnough : Steady days gaps c r → Untorn days c s.elapsed (stored days gaps c r) :=
    fun hSteady => ⟨_, hIn, steady_iff.mp hSteady⟩
  refine ⟨r, hEnd.reads, hEnough, fun hShort => ⟨?_, hEnough⟩⟩
  rintro ⟨n, hn, hTime⟩
  have hSecond := congrArg Time.second hTime
  have hMoment : passed gaps (8 * r + 6 + 1) = n :=
    moment_of_second (Nat.lt_of_le_of_lt hIn hShort) (Nat.lt_of_le_of_lt hn hShort)
      (BitVec.eq_of_toNat_eq hSecond)
  rw [steady_iff, hTime, clockAt, hMoment]

end

/-! ## New Year's Eve -/

/-- The calendar of the clock's chip. -/
def chipCalendar : Calendar := fun year month =>
  if month = 2 then if year % 4 = 0 then 29 else 28
  else if month = 4 ∨ month = 6 ∨ month = 9 ∨ month = 11 then 30 else 31

def midnight : Clock := ⟨59, 59, 23, 31, 12, 2023⟩

/-- The one second passes between the reads of the minutes and of the seconds. -/
def lateTick : Nat → Nat := fun k => if k = 6 then 1 else 0

/-- The one second passes before the first read. -/
def earlyTick : Nat → Nat := fun k => if k = 0 then 1 else 0

/-- 23:59:00 is stored, which the clock has shown 59 seconds before the call. -/
theorem getCmosTime_torn : ¬ ∀ (days : Calendar) (gaps : Nat → Nat) (c : Clock) (index : Byte)
    (fuel : Nat) (time : Time) (s : Cmos),
    getCmosTime days gaps fuel (Cmos.start c index) = some (time, s) → Untorn days c s.elapsed time := by
  intro h
  have hRun : getCmosTime chipCalendar lateTick 1 (Cmos.start midnight 0) =
      some (⟨0, 0x59, 0x23, 0x31, 0x12, 0x2023⟩, ⟨⟨0, 0, 0, 1, 1, 2024⟩, 0, 1, 9⟩) := by rfl
  obtain ⟨n, hn, hTime⟩ := h _ _ _ _ _ _ _ hRun
  have hCases : n = 0 ∨ n = 1 := by
    have hLe : n ≤ 1 := hn
    omega
  obtain rfl | rfl := hCases
  · exact absurd hTime (by decide)
  · exact absurd hTime (by decide)

theorem getCmosTime_untorn_midnight : Untorn chipCalendar midnight 1 ⟨0, 0, 0, 1, 1, 0x2024⟩ := by
  have hRun : getCmosTime chipCalendar earlyTick 1 (Cmos.start midnight 0) =
      some (⟨0, 0, 0, 1, 1, 0x2024⟩, ⟨⟨0, 0, 0, 1, 1, 2024⟩, 0, 1, 9⟩) := by rfl
  obtain ⟨r, hReads, hEnough, -⟩ := getCmosTime_untorn hRun
  have hr : r = 0 := by
    have hNine : 9 = 8 * r + 9 := hReads
    omega
  subst hr
  exact hEnough (steady_iff.mpr rfl)

end KalinoteOS.WallClock
