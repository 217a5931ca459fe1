import CoreOS.Kernel.File
import CoreOS.Lib.BitField
import Mathlib.Algebra.Order.Group.Nat
import Mathlib.Algebra.Ring.Int.Defs
import Mathlib.Data.Fintype.Basic
import Mathlib.Logic.Function.Basic

/-!
# The clock driver

The functions of `rtc.c`.  The chip interrupts at one rate for everybody, `sys_freq`, and the driver
gives each open clock a rate of its own: it keeps at most ten `FILE`s in `rtc_files` and counts the
interrupts down separately for each of them.

A clock's `FILE` holds, packed in `inode`, the exponent of its rate (5 bits), the exponent of the
ratio between the chip's rate and its own (5 bits) and the ticks it has not consumed yet (10 bits);
`pos` counts the interrupts left to the next tick.

Two functions can wait.  `rtc_read` waits for a tick, and `rtc_open` waits for ever when all ten
entries are taken.  A call that does not return is `none`.
-/

namespace CoreOS
namespace Rtc

/-! ## The fields of `FILE.inode` -/

/-- `MSK_5`. -/
def msk5 : BitVec 32 := 0x1F

/-- `MSK_10`. -/
def msk10 : BitVec 32 := 0x3FF

/-- `RTC_FREQ_MSK`. -/
def rtcFreqMsk : BitVec 32 := msk5 <<< 0

/-- `RTC_RATIO_MSK`. -/
def rtcRatioMsk : BitVec 32 := msk5 <<< 5

/-- `RTC_COUNT_MSK`. -/
def rtcCountMsk : BitVec 32 := msk10 <<< 10

/-- `set_rtc_freq_field`. -/
def setRtcFreqField (inode freq : BitVec 32) : BitVec 32 :=
  BitField.setByMsk inode rtcFreqMsk (freq <<< 0)

/-- `set_rtc_ratio_field`. -/
def setRtcRatioField (inode ratio : BitVec 32) : BitVec 32 :=
  BitField.setByMsk inode rtcRatioMsk (ratio <<< 5)

/-- `set_rtc_count_field`. -/
def setRtcCountField (inode count : BitVec 32) : BitVec 32 :=
  BitField.setByMsk inode rtcCountMsk (count <<< 10)

/-- `get_rtc_freq`. -/
def getRtcFreq (inode : BitVec 32) : BitVec 32 := (inode &&& rtcFreqMsk) >>> 0

/-- `get_rtc_ratio`. -/
def getRtcRatio (inode : BitVec 32) : BitVec 32 := (inode &&& rtcRatioMsk) >>> 5

/-- `get_rtc_count`. -/
def getRtcCount (inode : BitVec 32) : BitVec 32 := (inode &&& rtcCountMsk) >>> 10

/-! ## The state of the driver -/

/-- `RTC_SYS_MAX_FREQ`. -/
def rtcSysMaxFreq : ℕ := 8192

/-- `RTC_USER_MAX_FREQ`. -/
def rtcUserMaxFreq : ℕ := 1024

/-- `RTC_USER_DEF_FREQ`. -/
def rtcUserDefFreq : ℕ := 2

/-- `SYS_COUNTER_MAX`. -/
def sysCounterMax : ℕ := rtcSysMaxFreq * 10

/-- `SIG_FLAG(SIG_ALARM)`. -/
def sigAlarm : BitVec 8 := 1 <<< 3

/-- What the driver reads and writes: its own variables, register A of the chip, the `FILE`s it is
given and the `signals` of the processes. -/
structure Driver where
  files : FilePtr → FILE
  rtcFiles : Fin maxProcNum → Option FilePtr
  timeElasped : Fin maxProcNum → ℕ
  sysCounterStep : ℕ
  sysFreq : ℕ
  sysFreqPow : ℕ
  regA : BitVec 8
  signals : ℕ → BitVec 8

namespace Driver

/-- `*f = v`. -/
def setFile (s : Driver) (f : FilePtr) (v : FILE) : Driver :=
  { s with files := Function.update s.files f v }

/-- The state before `init_rtc`: the static variables are zero, the memory is arbitrary. -/
def boot (files : FilePtr → FILE) (signals : ℕ → BitVec 8) (regA : BitVec 8) : Driver where
  files := files
  rtcFiles := fun _ => none
  timeElasped := fun _ => 0
  sysCounterStep := 0
  sysFreq := 0
  sysFreqPow := 0
  regA := regA
  signals := signals

/-- `init_rtc`. -/
def initRtc (s : Driver) : Driver :=
  { s with
    regA := (s.regA &&& 0xF0) ||| 3
    sysFreqPow := 1
    sysFreq := 2 ^ 1
    sysCounterStep := rtcSysMaxFreq / 2 }

/-! ## Rates -/

/-- The loop `while (freq > (1 << freq_pow)) freq_pow ++`, at most `k` rounds of it. -/
def freqPowFrom (freq : ℤ) : ℕ → ℕ → ℕ
  | 0, p => p
  | k + 1, p => if (2 : ℤ) ^ p < freq then freqPowFrom freq k (p + 1) else p

/-- The exponent the loop finds when it starts at 1.  No caller passes more than 1024, so that the
shift of an `int` stays in range. -/
def freqPow (freq : ℤ) : ℕ := freqPowFrom freq 30 1

/-- `reset_rtc_info`. -/
def resetRtcInfo (s : Driver) (f : FilePtr) (freqPow : BitVec 32) : Driver :=
  let inodeVal := setRtcFreqField 0 freqPow
  let inodeVal := setRtcRatioField inodeVal (BitVec.ofNat 32 s.sysFreqPow - freqPow)
  let inodeVal := setRtcCountField inodeVal 0
  s.setFile f { s.files f with inode := inodeVal, pos := 1 <<< (getRtcRatio inodeVal).toNat }

/-- One round of the loop that brings every registered `FILE` in line with the new rate. -/
def updateRtc (s : Driver) (i : Fin maxProcNum) : Driver :=
  match s.rtcFiles i with
  | none => s
  | some f => s.resetRtcInfo f (getRtcFreq (s.files f).inode)

/-- `rtc_set_pi_freq`: the value returned and the state after the call. -/
def rtcSetPiFreq (s : Driver) (freq : BitVec 32) : ℤ × Driver :=
  if freq.toInt = s.sysFreq then (0, s)
  else
    let p := freqPow freq.toInt
    if freq.toInt ≠ 2 ^ p then (-1, s)
    else
      let rtcRateVal := BitVec.ofNat 8 (16 - p)
      let s := { s with
        sysFreqPow := p
        sysFreq := 2 ^ p
        sysCounterStep := rtcSysMaxFreq >>> p
        regA := (s.regA &&& 0xF0) ||| (rtcRateVal &&& 0xF) }
      (0, (List.finRange maxProcNum).foldl updateRtc s)

/-! ## The operations of a clock -/

/-- `rtc_write`.  The buffer is `NULL` or the four bytes read from it. -/
def rtcWrite (s : Driver) (buf : Option (BitVec 32)) (length : BitVec 32) (f : FilePtr) :
    ℤ × Driver :=
  match buf with
  | none => (-1, s)
  | some freq =>
    if length.toNat < 4 then (-1, s)
    else if rtcUserMaxFreq < freq.toNat then (-1, s)
    else
      let p := freqPow freq.toNat
      if freq.toNat ≠ 2 ^ p then (-1, s)
      else if s.sysFreq < freq.toNat then
        let s := s.setFile f { s.files f with
          inode := setRtcFreqField (s.files f).inode (BitVec.ofNat 32 p) }
        (0, (s.rtcSetPiFreq freq).2)
      else (0, s.resetRtcInfo f (BitVec.ofNat 32 p))

/-- What an interrupt does to a registered `FILE`. -/
def tick (v : FILE) : FILE :=
  let v := { v with pos := v.pos - 1 }
  if v.pos.toInt ≤ 0 then
    let count := (getRtcCount v.inode).toNat + 1
    let count := if 32 < count then 32 else count
    { v with
      pos := 1 <<< (getRtcRatio v.inode).toNat
      inode := setRtcCountField v.inode (BitVec.ofNat 32 count) }
  else v

/-- One round of the loop of `rtc_isr`, while process `cur` is running. -/
def isrRound (cur : ℕ) (s : Driver) (i : Fin maxProcNum) : Driver :=
  let elapsed := s.timeElasped i + s.sysCounterStep
  let s :=
    if sysCounterMax ≤ elapsed then
      { s with
        timeElasped := Function.update s.timeElasped i 0
        signals := Function.update s.signals cur (s.signals cur ||| sigAlarm) }
    else { s with timeElasped := Function.update s.timeElasped i elapsed }
  match s.rtcFiles i with
  | none => s
  | some f => s.setFile f (tick (s.files f))

/-- `rtc_isr`. -/
def rtcIsr (s : Driver) (cur : ℕ) : Driver := (List.finRange maxProcNum).foldl (isrRound cur) s

/-- `rtc_read`, from the test of the count that ends its waiting loop.  It does not return as long
as there is no tick to consume. -/
def rtcRead (s : Driver) (f : FilePtr) : Option (ℤ × Driver) :=
  let count := getRtcCount (s.files f).inode
  if count = 0 then none
  else some (0, s.setFile f { s.files f with
    inode := setRtcCountField (s.files f).inode (count - 1) })

/-- `rtc_open`.  It does not return when no entry of `rtc_files` is free. -/
def rtcOpen (s : Driver) (f : FilePtr) : Option (ℤ × Driver) :=
  let p := freqPow rtcUserDefFreq
  if rtcUserDefFreq ≠ 2 ^ p then some (-1, s)
  else
    let s := s.resetRtcInfo f (BitVec.ofNat 32 p)
    let s := s.setFile f { s.files f with fileOps := .rtc, type := .rtc }
    match (List.finRange maxProcNum).find? fun i => (s.rtcFiles i).isNone with
    | none => none
    | some i => some (0, { s with
        rtcFiles := Function.update s.rtcFiles i (some f)
        timeElasped := Function.update s.timeElasped i 0 })

/-- One round of the search of `rtc_close`, on `max_i` and `max_freq`. -/
def maxRound (s : Driver) (best : BitVec 32 × BitVec 32) (i : Fin maxProcNum) :
    BitVec 32 × BitVec 32 :=
  match s.rtcFiles i with
  | none => best
  | some f =>
    let tmpFreq := getRtcFreq (s.files f).inode
    if best.2 < tmpFreq then (BitVec.ofNat 32 i, tmpFreq) else best

/-- `rtc_close`.  Both variables of the search start at `-1` and are unsigned. -/
def rtcClose (s : Driver) (f : FilePtr) : ℤ × Driver :=
  let s := { s with rtcFiles := fun i => if s.rtcFiles i = some f then none else s.rtcFiles i }
  let (maxI, maxFreq) := (List.finRange maxProcNum).foldl s.maxRound (-1, -1)
  if maxI ≠ -1 then s.rtcSetPiFreq maxFreq else (0, s)

end Driver

/-! ## Histories of the driver -/

/-- One call into the driver.  An interrupt names the process it interrupts. -/
inductive Call where
  | open (f : FilePtr)
  | write (buf : Option (BitVec 32)) (length : BitVec 32) (f : FilePtr)
  | read (f : FilePtr)
  | close (f : FilePtr)
  | isr (cur : ℕ)
  deriving DecidableEq

/-- The state after a call.  A call that does not return changes nothing. -/
def exec (s : Driver) : Call → Driver
  | .open f => ((s.rtcOpen f).map Prod.snd).getD s
  | .write buf length f => (s.rtcWrite buf length f).2
  | .read f => ((s.rtcRead f).map Prod.snd).getD s
  | .close f => (s.rtcClose f).2
  | .isr cur => s.rtcIsr cur

end Rtc
end CoreOS
