import LinkedonPush.Kernel.Base

/-!
# The log

`LPushFastLog` of `lpushLogger.cpp`, as far as it touches `log_data`: every format into the buffer, the
newline at its end and what is handed to `write`. A format returns the length its text would have had,
and the level methods add these lengths up.
-/

namespace LinkedonPush

def logMaxSize : Nat := 4096

def logTailSize : Nat := 1

/-- A text that `snprintf` is asked for. It returns the whole length, so that is an `int`. -/
structure Formatted where
  text : Bytes
  fits : text.length < 2 ^ 31

/-- The arguments of `generate_header`. -/
structure LogHeader where
  error : Bool
  tag : Option Bytes
  contextId : Int
  levelName : Bytes

/-- What a level method finds. -/
structure LogWorld where
  /-- `gettimeofday` succeeds. -/
  clock : Bool
  header : LogHeader → Formatted
  message : Formatted
  /-- `errno` behind the format of the message. -/
  errno : Int
  /-- `strerror(errno)` in parentheses. -/
  errorText : Formatted
  /-- The descriptor that `open_log_file` gets, or `-1`. -/
  opened : Int

inductive ConsoleColour where
  | plain
  | yellow
  | red
deriving DecidableEq

inductive LogAccess where
  /-- `snprintf` or `vsnprintf` at the offset in `log_data`, with its size argument. -/
  | prints (offset : Int) (size : Nat) (formatted : Formatted)
  /-- A character is stored at the offset in `log_data`. -/
  | stores (offset : Int)
  /-- `printf` of the first bytes of `log_data`. -/
  | shows (colour : ConsoleColour) (size : Int)
  | writes (size : Nat)

structure LPushFastLog where
  level : Int
  fd : Int
  logToFileTank : Bool

namespace LPushFastLog

abbrev Progress := LPushFastLog × List LogAccess

/-- An `int` that is handed on as a `size_t`. -/
def asSize (n : BitVec 32) : Nat := (n.signExtend 64).toNat

/-- `snprintf` behind the first `size` bytes; the sum wraps. -/
def append (size : BitVec 32) (formatted : Formatted) : LogAccess × BitVec 32 :=
  (.prints size.toInt (asSize (BitVec.ofNat 32 logMaxSize - size)) formatted,
    size + BitVec.ofNat 32 formatted.text.length)

/-- The header and its size; `none` where there is no header. -/
def generateHeader (w : LogWorld) (header : LogHeader) : Option (LogAccess × BitVec 32) :=
  if w.clock then
    let formatted := w.header header
    some (.prints 0 logMaxSize formatted, BitVec.ofNat 32 (min (logMaxSize - 1) formatted.text.length))
  else none

def colourOf (level : Int) : ConsoleColour :=
  if level ≤ 3 then .plain else if level = 4 then .yellow else .red

/-- Room for the newline and a NUL. -/
def clamp (size : BitVec 32) : BitVec 32 :=
  if size.toInt < logMaxSize - 1 - logTailSize then size else BitVec.ofNat 32 (logMaxSize - 1 - logTailSize)

def writeLog (l : LPushFastLog) (w : LogWorld) (size : BitVec 32) (level : Int) : Progress :=
  let tail : LogAccess := .stores (clamp size).toInt
  let size := clamp size + 1
  if l.logToFileTank then
    let l := if l.fd < 0 then { l with fd := w.opened } else l
    (l, tail :: if 0 < l.fd then [.writes (asSize size)] else [])
  else (l, [tail, .shows (colourOf level) size.toInt])

/-- The text of `errno`, where a method `appends` it. -/
def appendErrno (appends : Bool) (w : LogWorld) (size : BitVec 32) : List LogAccess × BitVec 32 :=
  if appends && w.errno ≠ 0 then ([(append size w.errorText).1], (append size w.errorText).2) else ([], size)

/-- What the five level methods share. -/
def log (level : Int) (error : Bool) (levelName : Bytes) (appends : Bool) (l : LPushFastLog) (w : LogWorld)
    (tag : Option Bytes) (contextId : Int) : Progress :=
  if level < l.level then (l, [])
  else
    match generateHeader w ⟨error, tag, contextId, levelName⟩ with
    | none => (l, [])
    | some (header, size) =>
        let message := append size w.message
        let errorText := appendErrno appends w message.2
        let behind := l.writeLog w errorText.2 level
        (behind.1, header :: message.1 :: errorText.1 ++ behind.2)

def verbose : LPushFastLog → LogWorld → Option Bytes → Int → Progress := log 1 false (text "verb") false

def info : LPushFastLog → LogWorld → Option Bytes → Int → Progress := log 2 false (text "debug") false

def trace : LPushFastLog → LogWorld → Option Bytes → Int → Progress := log 3 false (text "trace") false

def warn : LPushFastLog → LogWorld → Option Bytes → Int → Progress := log 4 true (text "warn") false

/-- The only method that appends the text of `errno`. -/
def error : LPushFastLog → LogWorld → Option Bytes → Int → Progress := log 5 true (text "error") true

inductive LevelMethod where
  | verbose
  | info
  | trace
  | warn
  | error
deriving DecidableEq

def LevelMethod.run : LevelMethod → LPushFastLog → LogWorld → Option Bytes → Int → Progress
  | .verbose => LPushFastLog.verbose
  | .info => LPushFastLog.info
  | .trace => LPushFastLog.trace
  | .warn => LPushFastLog.warn
  | .error => LPushFastLog.error

def LevelMethod.level : LevelMethod → Int
  | .verbose => 1
  | .info => 2
  | .trace => 3
  | .warn => 4
  | .error => 5

def LevelMethod.header (m : LevelMethod) (tag : Option Bytes) (contextId : Int) : LogHeader :=
  match m with
  | .verbose => ⟨false, tag, contextId, text "verb"⟩
  | .info => ⟨false, tag, contextId, text "debug"⟩
  | .trace => ⟨false, tag, contextId, text "trace"⟩
  | .warn => ⟨true, tag, contextId, text "warn"⟩
  | .error => ⟨true, tag, contextId, text "error"⟩

/-! ### What stays inside -/

/-- The bytes a format stores: all but one of its size for the text, and a NUL. -/
def stored (size : Nat) (formatted : Formatted) : Nat :=
  if size = 0 then 0 else min formatted.text.length (size - 1) + 1

end LPushFastLog

/-- Every byte is stored inside `log_data`, every size is positive and no larger than the space left, and
`write` gets no more than the buffer. -/
def LogAccess.Inside : LogAccess → Prop
  | .prints offset size formatted =>
      0 < size ∧ (size : Int) ≤ logMaxSize - offset ∧
        0 ≤ offset ∧ offset + LPushFastLog.stored size formatted ≤ logMaxSize
  | .stores offset => 0 ≤ offset ∧ offset < logMaxSize
  | .shows _ _ => True
  | .writes size => size ≤ logMaxSize

namespace LPushFastLog

/-- The length that is counted before `errno`: of the header what is there of it, and of the message
everything. -/
def LevelMethod.counted (m : LevelMethod) (w : LogWorld) (tag : Option Bytes) (contextId : Int) : Nat :=
  min (logMaxSize - 1) (w.header (m.header tag contextId)).text.length + w.message.text.length

/-- The counted length is an `int`, and is less than the buffer where the text of `errno` comes behind
it. -/
def LevelMethod.Fits (m : LevelMethod) (w : LogWorld) (tag : Option Bytes) (contextId : Int) : Prop :=
  m.counted w tag contextId < 2 ^ 31 ∧
    (m = .error → w.errno ≠ 0 → m.counted w tag contextId < logMaxSize ∧
      m.counted w tag contextId + w.errorText.text.length < 2 ^ 31)

section

variable {size : BitVec 32} {formatted : Formatted} {l : LPushFastLog} {w : LogWorld}

theorem toInt_room (h : 0 ≤ size.toInt) : (BitVec.ofNat 32 logMaxSize - size).toInt = logMaxSize - size.toInt := by
  have hmax : (BitVec.ofNat 32 logMaxSize).toInt = 4096 := by decide
  have hbound := BitVec.two_mul_toInt_lt (x := size)
  rw [BitVec.toInt_sub, hmax, logMaxSize, Int.bmod_eq_of_le (by omega) (by omega)]
  rfl

/-- A sum that is no `int` any more is negative. -/
theorem toInt_append (h : 0 ≤ size.toInt) : (append size formatted).2.toInt =
    if size.toInt + formatted.text.length < 2 ^ 31 then size.toInt + formatted.text.length
    else size.toInt + formatted.text.length - 2 ^ 32 := by
  have hfits := formatted.fits
  have hbound := BitVec.two_mul_toInt_lt (x := size)
  rw [append, BitVec.toInt_add, toInt_ofNat hfits]
  split
  · exact Int.bmod_eq_of_le (by omega) (by omega)
  · rw [← Int.sub_bmod_right, Int.bmod_eq_of_le (by omega) (by omega)]
    rfl

theorem inside_append : (append size formatted).1.Inside ↔ 0 ≤ size.toInt ∧ size.toInt < logMaxSize := by
  have hmax : logMaxSize = 4096 := rfl
  constructor
  · rintro ⟨hpos, hspace, hoffset, -⟩
    refine ⟨hoffset, ?_⟩
    have hroom := toInt_room hoffset
    by_contra hfull
    by_cases hzero : (BitVec.ofNat 32 logMaxSize - size).toInt < 0
    · have hhuge : 2 ^ 63 ≤ asSize (BitVec.ofNat 32 logMaxSize - size) := le_toNat_signExtend hzero
      omega
    · have hsize : (asSize (BitVec.ofNat 32 logMaxSize - size) : Int) = _ := toNat_signExtend (not_lt.mp hzero)
      omega
  · rintro ⟨hoffset, hroom⟩
    have hleft := toInt_room hoffset
    have hsize : (asSize (BitVec.ofNat 32 logMaxSize - size) : Int) = _ := toNat_signExtend (by omega)
    refine ⟨by omega, by omega, hoffset, ?_⟩
    unfold stored
    split <;> omega

theorem toInt_append_nonneg (h : 0 ≤ size.toInt) :
    0 ≤ (append size formatted).2.toInt ↔ size.toInt + formatted.text.length < 2 ^ 31 := by
  have hfits := formatted.fits
  have hbound := BitVec.two_mul_toInt_lt (x := size)
  rw [toInt_append h]
  split <;> omega

theorem toInt_clamp (size : BitVec 32) : (clamp size).toInt = min size.toInt 4094 := by
  have hmax : (logMaxSize : Int) - 1 - logTailSize = 4094 := rfl
  have hclamped : (BitVec.ofNat 32 (logMaxSize - 1 - logTailSize)).toInt = 4094 := by decide
  rw [clamp, hmax]
  split
  · omega
  · rw [hclamped]
    omega

theorem inside_tail : (LogAccess.stores (clamp size).toInt).Inside ↔ 0 ≤ size.toInt := by
  have hmax : logMaxSize = 4096 := rfl
  rw [LogAccess.Inside, toInt_clamp]
  omega

theorem asSize_clamp_le (h : 0 ≤ size.toInt) : asSize (clamp size + 1) ≤ logMaxSize := by
  have hmax : logMaxSize = 4096 := rfl
  have hone : (1 : BitVec 32).toInt = 1 := rfl
  have hclamp := toInt_clamp size
  have hnext : (clamp size + 1).toInt = (clamp size).toInt + 1 := by
    rw [BitVec.toInt_add, hone, Int.bmod_eq_of_le (by omega) (by omega)]
  have hsize : (asSize (clamp size + 1) : Int) = _ := toNat_signExtend (by omega)
  omega

/-- `write_log` goes wrong only with a sum that became negative. -/
theorem inside_writeLog {level : Int} : (∀ a ∈ (l.writeLog w size level).2, a.Inside) ↔ 0 ≤ size.toInt := by
  have hsize : ∀ rest : List LogAccess, (0 ≤ size.toInt → ∀ a ∈ rest, a.Inside) →
      ((∀ a ∈ .stores (clamp size).toInt :: rest, a.Inside) ↔ 0 ≤ size.toInt) := by
    intro rest hrest
    rw [List.forall_mem_cons, inside_tail]
    exact and_iff_left_of_imp hrest
  unfold writeLog
  dsimp only
  split
  · apply hsize
    intro hnonneg a ha
    rw [List.mem_ite_nil_right, List.mem_singleton] at ha
    rw [ha.2]
    exact asSize_clamp_le hnonneg
  · apply hsize
    intro _ a ha
    rw [List.mem_singleton.mp ha]
    trivial

/-! ### The level methods -/

theorem run_eq (m : LevelMethod) (tag : Option Bytes) (contextId : Int) : m.run l w tag contextId =
    log m.level (m.header tag contextId).error (m.header tag contextId).levelName (decide (m = .error)) l w
      tag contextId := by
  cases m <;> rfl

/-- Without a header, nothing is written. -/
theorem log_of_silent {level : Int} {error appends : Bool} {levelName : Bytes} {tag : Option Bytes} {contextId : Int}
    (h : level < l.level ∨ w.clock = false) : log level error levelName appends l w tag contextId = (l, []) := by
  unfold log
  rcases h with hlevel | hclock
  · rw [if_pos hlevel]
  · rw [generateHeader, hclock]
    split <;> rfl

theorem inside_header (header : LogHeader) : (LogAccess.prints 0 logMaxSize (w.header header)).Inside := by
  have hmax : logMaxSize = 4096 := rfl
  refine ⟨by omega, by omega, le_rfl, ?_⟩
  unfold stored
  split <;> omega

theorem inside_appendErrno {appends : Bool} :
    ((∀ a ∈ (appendErrno appends w size).1, a.Inside) ∧ 0 ≤ (appendErrno appends w size).2.toInt) ↔
      0 ≤ size.toInt ∧ (appends = true → w.errno ≠ 0 →
        size.toInt < logMaxSize ∧ size.toInt + w.errorText.text.length < 2 ^ 31) := by
  unfold appendErrno
  split
  · rename_i happends
    simp only [Bool.and_eq_true, decide_eq_true_eq] at happends
    dsimp only
    rw [List.forall_mem_singleton, inside_append]
    constructor
    · rintro ⟨⟨hnonneg, hroom⟩, hsum⟩
      exact ⟨hnonneg, fun _ _ => ⟨hroom, (toInt_append_nonneg hnonneg).mp hsum⟩⟩
    · rintro ⟨hnonneg, hfits⟩
      obtain ⟨hroom, hsum⟩ := hfits happends.1 happends.2
      exact ⟨⟨hnonneg, hroom⟩, (toInt_append_nonneg hnonneg).mpr hsum⟩
  · rename_i hnone
    simp only [Bool.and_eq_true, decide_eq_true_eq, not_and] at hnone
    constructor
    · rintro ⟨-, hnonneg⟩
      exact ⟨hnonneg, fun happends herrno => absurd herrno (hnone happends)⟩
    · rintro ⟨hnonneg, -⟩
      exact ⟨fun _ ha => (List.not_mem_nil ha).elim, hnonneg⟩

theorem inside_log {level : Int} {error appends : Bool} {levelName : Bytes} {tag : Option Bytes} {contextId : Int}
    (hlevel : l.level ≤ level) (hclock : w.clock = true) {counted : Nat}
    (hcounted : counted = min (logMaxSize - 1) (w.header ⟨error, tag, contextId, levelName⟩).text.length +
      w.message.text.length) :
    (∀ a ∈ (log level error levelName appends l w tag contextId).2, a.Inside) ↔
      counted < 2 ^ 31 ∧ (appends = true → w.errno ≠ 0 →
        counted < logMaxSize ∧ counted + w.errorText.text.length < 2 ^ 31) := by
  have hmax : logMaxSize = 4096 := rfl
  have hmessage := w.message.fits
  rw [log, if_neg (not_lt.mpr hlevel), generateHeader, if_pos hclock]
  dsimp only
  generalize hheader : w.header ⟨error, tag, contextId, levelName⟩ = header at hcounted ⊢
  have hsize : (BitVec.ofNat 32 (min (logMaxSize - 1) header.text.length)).toInt =
      (min (logMaxSize - 1) header.text.length : Nat) := toInt_ofNat (by omega)
  have hfirst : (LogAccess.prints 0 logMaxSize header).Inside := by
    rw [← hheader]
    exact inside_header _
  have hsecond : (append (BitVec.ofNat 32 (min (logMaxSize - 1) header.text.length)) w.message).1.Inside :=
    inside_append.mpr (by omega)
  have hsum := @toInt_append (BitVec.ofNat 32 (min (logMaxSize - 1) header.text.length)) w.message (by omega)
  rw [List.cons_append, List.cons_append, List.forall_mem_cons, List.forall_mem_cons, List.forall_mem_append,
    inside_writeLog, and_iff_right hfirst, and_iff_right hsecond, inside_appendErrno]
  -- the sum is the counted length, or negative
  rw [hsize, ← Int.natCast_add, ← hcounted] at hsum
  rw [hsum]
  split
  · rename_i hfits
    constructor
    · rintro ⟨-, happends⟩
      refine ⟨by omega, fun ha herrno => ?_⟩
      have hroom := happends ha herrno
      omega
    · rintro ⟨-, happends⟩
      refine ⟨by omega, fun ha herrno => ?_⟩
      have hroom := happends ha herrno
      omega
  · rename_i hwide
    constructor
    · rintro ⟨hnonneg, -⟩
      omega
    · rintro ⟨hfits, -⟩
      omega

/-- **Log lines.** What a level method touches stays inside `log_data` exactly if it writes no line, or
the text of `errno` begins inside the buffer where it is appended, and every sum is an `int`. -/
theorem inside_iff_fits (m : LevelMethod) (l : LPushFastLog) (w : LogWorld) (tag : Option Bytes) (contextId : Int) :
    (∀ a ∈ (m.run l w tag contextId).2, a.Inside) ↔
      (l.level ≤ m.level → w.clock = true → m.Fits w tag contextId) := by
  rw [run_eq]
  by_cases hsilent : m.level < l.level ∨ w.clock = false
  · rw [log_of_silent hsilent]
    constructor
    · intro _ hlevel hclock
      rcases hsilent with hbelow | hstopped
      · omega
      · cases hclock.symm.trans hstopped
    · intro _ a ha
      cases ha
  · obtain ⟨hlevel, hclock⟩ := not_or.mp hsilent
    have hwrites : l.level ≤ m.level := not_lt.mp hlevel
    have hrunning : w.clock = true := Bool.eq_true_of_not_eq_false hclock
    have hheader : LogHeader.mk (m.header tag contextId).error tag contextId (m.header tag contextId).levelName =
        m.header tag contextId := by
      cases m <;> rfl
    have hcounted : m.counted w tag contextId = min (logMaxSize - 1) (w.header
        ⟨(m.header tag contextId).error, tag, contextId, (m.header tag contextId).levelName⟩).text.length +
          w.message.text.length := by
      rw [hheader]
      rfl
    rw [inside_log hwrites hrunning hcounted, decide_eq_true_iff]
    exact ⟨fun h _ _ => h, fun h => h hwrites hrunning⟩

end

def filled (length : Nat) (h : length < 2 ^ 31) : Formatted :=
  ⟨List.replicate length 0x78, List.length_replicate.trans_lt h⟩

/-- A header of 70 bytes, a message of the length, and `errno` set. -/
def longMessage (length : Nat) (h : length < 2 ^ 31) : LogWorld where
  clock := true
  header := fun _ => filled 70 (by decide)
  message := filled length h
  errno := 2
  errorText := filled 27 (by decide)
  opened := 3

theorem not_inside_longMessage {length : Nat} (h : length < 2 ^ 31) (hlong : 4026 ≤ length) :
    ¬ ∀ a ∈ (LevelMethod.error.run ⟨1, -1, true⟩ (longMessage length h) none 1).2, a.Inside := by
  have hmax : logMaxSize = 4096 := rfl
  have hcounted : 70 + length =
      min (logMaxSize - 1) (filled 70 (by decide)).text.length + (filled length h).text.length := by
    simp only [filled, List.length_replicate]
    omega
  rw [run_eq, inside_log (by decide) rfl hcounted]
  rintro ⟨-, hfits⟩
  have herrno : (longMessage length h).errno ≠ 0 := show (2 : Int) ≠ 0 by decide
  have hroom := (hfits rfl herrno).1
  omega

/-- A message of 4096 bytes, so that the text of `errno` comes behind the end. -/
theorem not_inside : ¬ ∀ (m : LevelMethod) (l : LPushFastLog) (w : LogWorld) (tag : Option Bytes) (contextId : Int),
    ∀ a ∈ (m.run l w tag contextId).2, a.Inside := by
  intro h
  have hfits : 4096 < 2 ^ 31 := by decide
  exact not_inside_longMessage hfits (by decide) (h .error ⟨1, -1, true⟩ (longMessage 4096 hfits) none 1)

end LPushFastLog

end LinkedonPush
