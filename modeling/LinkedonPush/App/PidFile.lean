import LinkedonPush.Theory.Run
import LinkedonPush.Kernel.Utils
import Mathlib.Logic.Function.Basic

/-!
# One server for each pid file

`acquire_pid_file` in any number of processes at once, each with the pid file of its configuration.
A process may end at any moment, which gives its locks back, and its number may then go to another
one. Nobody removes a pid file.
-/

namespace LinkedonPush

open Theory

/-- The calls of `acquire_pid_file`, in their order. -/
inductive PidCall where
  | openFile
  | setLock
  | ftruncate
  | write
  | getFd
  | setFd
deriving DecidableEq

inductive PidPoint where
  | calling (call : PidCall)
  /-- `acquire_pid_file` has returned. -/
  | returned (ret : Int)
deriving DecidableEq

namespace PidCall

/-- The process has the lock when it makes the call. -/
def Locked : PidCall → Prop
  | .openFile | .setLock => False
  | _ => True

/-- The process has written its number when it makes the call. -/
def Written : PidCall → Prop
  | .getFd | .setFd => True
  | _ => False

/-- Where the process is if the call succeeds. -/
def next : PidCall → PidPoint
  | .openFile => .calling .setLock
  | .setLock => .calling .ftruncate
  | .ftruncate => .calling .write
  | .write => .calling .getFd
  | .getFd => .calling .setFd
  | .setFd => .returned errorSuccess

instance : DecidablePred Locked
  | .openFile | .setLock => instDecidableFalse
  | .ftruncate | .write | .getFd | .setFd => instDecidableTrue

instance : DecidablePred Written
  | .openFile | .setLock | .ftruncate | .write => instDecidableFalse
  | .getFd | .setFd => instDecidableTrue

end PidCall

structure PidProcess where
  /-- `conf->pid_file`. -/
  pidFile : Bytes
  point : PidPoint
deriving DecidableEq

def defaultPidFileName : Bytes := text "objs/lpush.pid"

/-- What `open` is called with. -/
def PidProcess.path (p : PidProcess) : Bytes := cStr (if p.pidFile.isEmpty then defaultPidFileName else p.pidFile)

structure LockedFile where
  content : Bytes
  /-- The process with the write lock on the whole file. -/
  holder : Option Nat
deriving DecidableEq

/-- What `write` leaves at the start of a file. -/
def LockedFile.overwrite (f : LockedFile) (written : Bytes) : LockedFile :=
  { f with content := written ++ f.content.drop written.length }

structure PidWorld where
  file : Bytes → LockedFile
  process : Nat → Option PidProcess

inductive PidEvent where
  | started (pid : Nat) (pidFile : Bytes)
  | returned (pid : Nat) (ret : Int)
  | exited (pid : Nat)
deriving DecidableEq

namespace PidWorld

abbrev Progress := PidWorld × List PidEvent

section calls

variable (w : PidWorld) (pid : Nat) (p : PidProcess)

def setPoint (point : PidPoint) : PidWorld :=
  { w with process := Function.update w.process pid (some { p with point := point }) }

def setFile (f : LockedFile) : PidWorld := { w with file := Function.update w.file p.path f }

def goOn (call : PidCall) : Progress := (w.setPoint pid p (.calling call), [])

def giveBack (ret : Int) : Progress := (w.setPoint pid p (.returned ret), [.returned pid ret])

/-- `snprintf` of `getpid()`. -/
def pidText : Bytes := decimal pid

/-- One call of `acquire_pid_file` and the test of what it returns; `none` for `-1`. A lock of another
process makes `F_SETLK` fail with `EACCES` or `EAGAIN`. -/
def call (answer : Option Nat) : PidCall → Progress
  | .openFile =>
      match answer with
      | none => w.giveBack pid p errorSystemPidAcquire
      | some _ => w.goOn pid p .setLock
  | .setLock =>
      if (w.file p.path).holder.any (· ≠ pid) then w.giveBack pid p errorSystemPidAlreadyRunning
      else
        match answer with
        | none => w.giveBack pid p errorSystemPidLock
        | some _ => (w.setFile p { w.file p.path with holder := some pid }).goOn pid p .ftruncate
  | .ftruncate =>
      match answer with
      | none => w.giveBack pid p errorSystemPidTruncateFile
      | some _ => (w.setFile p { w.file p.path with content := [] }).goOn pid p .write
  | .write =>
      match answer with
      | none => w.giveBack pid p errorSystemPidWriteFile
      | some n =>
          let written := w.setFile p ((w.file p.path).overwrite ((pidText pid).take n))
          if n = (pidText pid).length then written.goOn pid p .getFd
          else written.giveBack pid p errorSystemPidWriteFile
  | .getFd =>
      match answer with
      | none => w.giveBack pid p errorSystemPidGetFileInfo
      | some _ => w.goOn pid p .setFd
  | .setFd =>
      match answer with
      | none => w.giveBack pid p errorSystemPidSetFileInfo
      | some _ => w.giveBack pid p errorSuccess

end calls

/-- The end of a process gives its locks back. -/
def exit (w : PidWorld) (pid : Nat) : PidWorld where
  file := fun path => if (w.file path).holder = some pid then { w.file path with holder := none } else w.file path
  process := Function.update w.process pid none

inductive Move where
  /-- `acquire_pid_file` is called in a new process. -/
  | start (pid : Nat) (pidFile : Bytes)
  | call (pid : Nat) (answer : Option Nat)
  | exit (pid : Nat)

def move : Move → PidWorld → Option Progress
  | .start pid pidFile, w =>
      match w.process pid with
      | some _ => none
      | none => some (w.setPoint pid ⟨pidFile, .calling .openFile⟩ (.calling .openFile), [.started pid pidFile])
  | .call pid answer, w =>
      match w.process pid with
      | some ⟨pidFile, .calling call⟩ => some (w.call pid ⟨pidFile, .calling call⟩ answer call)
      | _ => none
  | .exit pid, w => (w.process pid).map fun _ => (w.exit pid, [.exited pid])

def Step (w : PidWorld) (shown : List PidEvent) (w' : PidWorld) : Prop := ∃ m, move m w = some (w', shown)

/-- No process yet; the files may have any contents. -/
structure Initial (w : PidWorld) : Prop where
  process : ∀ pid, w.process pid = none
  holder : ∀ path, (w.file path).holder = none

abbrev Reached := Run Initial Step

/-! ### The lock and what it protects -/

end PidWorld

namespace PidPoint

/-- The process has come past the lock. -/
def Locked : PidPoint → Prop
  | .calling call => call.Locked
  | .returned ret =>
      ret ∈ [errorSuccess, errorSystemPidTruncateFile, errorSystemPidWriteFile, errorSystemPidGetFileInfo,
        errorSystemPidSetFileInfo]

/-- The process has written its number. -/
def Written : PidPoint → Prop
  | .calling call => call.Written
  | .returned ret => ret ∈ [errorSuccess, errorSystemPidGetFileInfo, errorSystemPidSetFileInfo]

instance : DecidablePred Locked
  | .calling call => inferInstanceAs (Decidable call.Locked)
  | .returned ret => inferInstanceAs (Decidable (ret ∈ _))

instance : DecidablePred Written
  | .calling call => inferInstanceAs (Decidable call.Written)
  | .returned ret => inferInstanceAs (Decidable (ret ∈ _))

theorem Written.locked {point : PidPoint} (h : point.Written) : point.Locked := by
  cases point with
  | calling call => cases call <;> first | exact h | trivial
  | returned ret =>
      change ret ∈ [errorSuccess, errorSystemPidGetFileInfo, errorSystemPidSetFileInfo] at h
      change ret ∈ [errorSuccess, errorSystemPidTruncateFile, errorSystemPidWriteFile, errorSystemPidGetFileInfo,
        errorSystemPidSetFileInfo]
      simp only [List.mem_cons, List.not_mem_nil, or_false] at h ⊢
      omega

end PidPoint

namespace PidWorld

/-- The process has the pid file and the point. -/
def At (w : PidWorld) (path : Bytes) (pid : Nat) (point : PidPoint) : Prop :=
  ∃ p, w.process pid = some p ∧ p.path = path ∧ p.point = point

/-- The process has come past the lock of the pid file. -/
def Inside (w : PidWorld) (path : Bytes) (pid : Nat) : Prop := ∃ point, w.At path pid point ∧ point.Locked

/-- `acquire_pid_file` has succeeded in the process, and the process has not ended. -/
def Serves (w : PidWorld) (path : Bytes) (pid : Nat) : Prop := w.At path pid (.returned errorSuccess)

/-- Who has a lock is who is past it, and what is in the file is what that process has made of it. -/
structure Sound (w : PidWorld) : Prop where
  holder : ∀ path pid, (w.file path).holder = some pid ↔ w.Inside path pid
  blank : ∀ path pid, w.At path pid (.calling .write) → (w.file path).content = []
  written : ∀ path pid point, w.At path pid point → point.Written → (w.file path).content = pidText pid

/-- A process goes from one point to another and leaves its pid file behind like this. -/
structure Goes (w : PidWorld) (pid : Nat) (p : PidProcess) (f : LockedFile) (point : PidPoint) : Prop where
  locks : point.Locked → f.holder = some pid ∧ ∀ other, (w.file p.path).holder = some other → other = pid
  keeps : ¬ point.Locked → f = w.file p.path ∧ ¬ p.point.Locked
  blank : point = .calling .write → f.content = []
  written : point.Written → f.content = pidText pid

section sound

variable {w : PidWorld} {pid other : Nat} {p : PidProcess} {f : LockedFile} {path : Bytes} {point point' : PidPoint}

theorem sound_initial (h : w.Initial) : w.Sound := by
  have hnobody : ∀ path pid point, ¬ w.At path pid point := by
    intro path pid point hat
    obtain ⟨p, hp, -, -⟩ := hat
    rw [h.process pid] at hp
    cases hp
  constructor
  · intro path pid
    rw [h.holder path]
    constructor
    · intro hholder
      cases hholder
    · intro hinside
      obtain ⟨point, hat, -⟩ := hinside
      exact (hnobody path pid point hat).elim
  · intro path pid hat
    exact (hnobody path pid _ hat).elim
  · intro path pid point hat _
    exact (hnobody path pid point hat).elim

/-- Two processes are not inside at once. -/
theorem Sound.unique (h : w.Sound) (hpid : w.Inside path pid) (hother : w.Inside path other) : pid = other := by
  rw [← h.holder] at hpid hother
  rw [hpid] at hother
  exact Option.some.inj hother

theorem at_goes_self :
    ((w.setFile p f).setPoint pid p point).At path pid point' ↔ p.path = path ∧ point = point' := by
  have hself : ((w.setFile p f).setPoint pid p point).process pid = some { p with point := point } :=
    Function.update_self pid _ w.process
  rw [At, hself]
  constructor
  · intro h
    obtain ⟨q, hq, hpath, hpoint⟩ := h
    obtain rfl := Option.some.inj hq
    exact ⟨hpath, hpoint⟩
  · intro h
    exact ⟨_, rfl, h.1, h.2⟩

theorem at_goes_other (hother : other ≠ pid) :
    ((w.setFile p f).setPoint pid p point).At path other point' ↔ w.At path other point' := by
  have hsame : ((w.setFile p f).setPoint pid p point).process other = w.process other :=
    Function.update_of_ne hother _ w.process
  rw [At, At, hsame]

theorem inside_goes_self :
    ((w.setFile p f).setPoint pid p point).Inside path pid ↔ p.path = path ∧ point.Locked := by
  simp only [Inside, at_goes_self]
  constructor
  · intro h
    obtain ⟨point', ⟨hpath, hpoint⟩, hlocked⟩ := h
    exact ⟨hpath, hpoint ▸ hlocked⟩
  · intro h
    exact ⟨point, ⟨h.1, rfl⟩, h.2⟩

theorem inside_goes_other (hother : other ≠ pid) :
    ((w.setFile p f).setPoint pid p point).Inside path other ↔ w.Inside path other := by
  simp only [Inside, at_goes_other hother]

theorem file_goes : ((w.setFile p f).setPoint pid p point).file path = if path = p.path then f else w.file path :=
  Function.update_apply w.file p.path f path

theorem At.eq (hat : w.At path pid point) (hp : w.process pid = some p) : p.path = path ∧ p.point = point := by
  obtain ⟨q, hq, hpath, hpoint⟩ := hat
  rw [hp] at hq
  obtain rfl := Option.some.inj hq
  exact ⟨hpath, hpoint⟩

theorem inside_iff (hp : w.process pid = some p) : w.Inside path pid ↔ p.path = path ∧ p.point.Locked := by
  constructor
  · intro h
    obtain ⟨point, hat, hlocked⟩ := h
    obtain ⟨hpath, hpoint⟩ := hat.eq hp
    exact ⟨hpath, hpoint ▸ hlocked⟩
  · intro h
    exact ⟨p.point, ⟨p, hp, h.1, rfl⟩, h.2⟩

/-- A file that another process has locked stays as it is. -/
theorem Sound.file_goes_other (hsound : w.Sound) (hgoes : w.Goes pid p f point) (hother : other ≠ pid)
    (hinside : w.Inside path other) : ((w.setFile p f).setPoint pid p point).file path = w.file path := by
  rw [file_goes]
  split
  · next hpath =>
      subst hpath
      by_cases hlocked : point.Locked
      · have hholder := (hsound.holder p.path other).mpr hinside
        exact (hother ((hgoes.locks hlocked).2 other hholder)).elim
      · exact (hgoes.keeps hlocked).1
  · rfl

theorem Sound.goes (hsound : w.Sound) (hp : w.process pid = some p) (hgoes : w.Goes pid p f point) :
    ((w.setFile p f).setPoint pid p point).Sound where
  holder := by
    intro path other
    rw [file_goes]
    by_cases hpath : path = p.path
    · subst hpath
      rw [if_pos rfl]
      by_cases hlocked : point.Locked
      · obtain ⟨hholder, hfree⟩ := hgoes.locks hlocked
        rw [hholder]
        by_cases hother : other = pid
        · subst hother
          rw [inside_goes_self]
          exact iff_of_true rfl ⟨rfl, hlocked⟩
        · rw [inside_goes_other hother, ← hsound.holder]
          refine iff_of_false (fun h => hother (Option.some.inj h).symm) (fun h => hother (hfree other h))
      · obtain ⟨hf, hbefore⟩ := hgoes.keeps hlocked
        rw [hf, hsound.holder]
        by_cases hother : other = pid
        · subst hother
          rw [inside_goes_self, inside_iff hp]
          exact iff_of_false (fun h => hbefore h.2) (fun h => hlocked h.2)
        · rw [inside_goes_other hother]
    · rw [if_neg hpath, hsound.holder]
      by_cases hother : other = pid
      · subst hother
        rw [inside_goes_self, inside_iff hp]
        exact iff_of_false (fun h => hpath h.1.symm) (fun h => hpath h.1.symm)
      · rw [inside_goes_other hother]
  blank := by
    intro path other hat
    by_cases hother : other = pid
    · subst hother
      obtain ⟨hpath, hpoint⟩ := at_goes_self.mp hat
      rw [file_goes, if_pos hpath.symm]
      exact hgoes.blank hpoint
    · have hbefore := (at_goes_other hother).mp hat
      have hinside : w.Inside path other := ⟨_, hbefore, trivial⟩
      rw [hsound.file_goes_other hgoes hother hinside]
      exact hsound.blank path other hbefore
  written := by
    intro path other point' hat hwritten
    by_cases hother : other = pid
    · subst hother
      obtain ⟨hpath, hpoint⟩ := at_goes_self.mp hat
      rw [file_goes, if_pos hpath.symm]
      exact hgoes.written (hpoint ▸ hwritten)
    · have hbefore := (at_goes_other hother).mp hat
      have hinside : w.Inside path other := ⟨point', hbefore, hwritten.locked⟩
      rw [hsound.file_goes_other hgoes hother hinside]
      exact hsound.written path other point' hbefore hwritten

end sound

/-! ### What a call does -/

section calls

variable {w : PidWorld} {pid : Nat} {pidFile : Bytes} {answer : Option Nat}

/-- Without a change of the file. -/
theorem Goes.stays {p : PidProcess} {point : PidPoint} (hsound : w.Sound) (hp : w.process pid = some p)
    (hlocked : point.Locked ↔ p.point.Locked) (hblank : point ≠ .calling .write)
    (hwritten : point.Written → p.point.Written) : w.Goes pid p (w.file p.path) point where
  locks := by
    intro hpoint
    have hinside : w.Inside p.path pid := ⟨p.point, ⟨p, hp, rfl, rfl⟩, hlocked.mp hpoint⟩
    have hholder := (hsound.holder p.path pid).mpr hinside
    refine ⟨hholder, fun other hother => ?_⟩
    rw [hholder] at hother
    exact (Option.some.inj hother).symm
  keeps := fun hpoint => ⟨rfl, fun hbefore => hpoint (hlocked.mpr hbefore)⟩
  blank := fun hpoint => (hblank hpoint).elim
  written := fun hpoint => hsound.written p.path pid p.point ⟨p, hp, rfl, rfl⟩ (hwritten hpoint)

theorem setPoint_eq {p : PidProcess} {point : PidPoint} :
    w.setPoint pid p point = (w.setFile p (w.file p.path)).setPoint pid p point := by
  rw [setFile, Function.update_eq_self]

/-- The world after a call is that of a process that goes on. -/
def Gone (w : PidWorld) (pid : Nat) (p : PidProcess) (w' : PidWorld) : Prop :=
  ∃ f point, w' = (w.setFile p f).setPoint pid p point ∧ w.Goes pid p f point

/-- Before the lock, and after it where the call changes nothing. -/
theorem Gone.stays {c : PidCall} {point : PidPoint} (hsound : w.Sound)
    (hp : w.process pid = some ⟨pidFile, .calling c⟩) (hlocked : point.Locked ↔ c.Locked)
    (hblank : point ≠ .calling .write) (hwritten : point.Written → c.Written) :
    w.Gone pid ⟨pidFile, .calling c⟩ (w.setPoint pid ⟨pidFile, .calling c⟩ point) :=
  ⟨_, point, setPoint_eq, .stays hsound hp hlocked hblank hwritten⟩

/-- Behind the lock, where the call changes the file. -/
theorem Gone.changes {p : PidProcess} {f : LockedFile} {point : PidPoint} (hsound : w.Sound)
    (hp : w.process pid = some p) (hbefore : p.point.Locked) (hlocked : point.Locked)
    (hholder : f.holder = (w.file p.path).holder) (hblank : point = .calling .write → f.content = [])
    (hwritten : point.Written → f.content = pidText pid) :
    w.Gone pid p ((w.setFile p f).setPoint pid p point) := by
  have hheld : (w.file p.path).holder = some pid :=
    (hsound.holder p.path pid).mpr ⟨p.point, ⟨p, hp, rfl, rfl⟩, hbefore⟩
  refine ⟨f, point, rfl, fun _ => ⟨hholder.trans hheld, fun other hother => ?_⟩, fun h => (h hlocked).elim, hblank,
    hwritten⟩
  rw [hheld] at hother
  exact (Option.some.inj hother).symm

theorem gone_setLock (hsound : w.Sound) (hp : w.process pid = some ⟨pidFile, .calling .setLock⟩) :
    w.Gone pid ⟨pidFile, .calling .setLock⟩ (w.call pid ⟨pidFile, .calling .setLock⟩ answer .setLock).1 := by
  simp only [call]
  split
  · exact .stays hsound hp (by decide) (by decide) (by decide)
  · next hfree =>
      cases answer with
      | none => exact .stays hsound hp (by decide) (by decide) (by decide)
      | some n =>
          refine ⟨_, _, rfl, fun _ => ⟨rfl, fun other hother => ?_⟩, fun h => (h trivial).elim,
            fun h => absurd h (by decide), fun h => absurd h (by decide)⟩
          rw [hother, Option.any_some, decide_eq_true_iff, Decidable.not_not] at hfree
          exact hfree

theorem gone_write (hsound : w.Sound) (hp : w.process pid = some ⟨pidFile, .calling .write⟩) :
    w.Gone pid ⟨pidFile, .calling .write⟩ (w.call pid ⟨pidFile, .calling .write⟩ answer .write).1 := by
  cases answer with
  | none => exact .stays hsound hp (by decide) (by decide) (by decide)
  | some n =>
      rw [call]
      split
      · next hn =>
          refine .changes hsound hp trivial trivial rfl (fun h => absurd h (by decide)) fun _ => ?_
          have hblank := hsound.blank _ pid ⟨_, hp, rfl, rfl⟩
          rw [LockedFile.overwrite, hn, List.take_length, hblank, List.drop_nil, List.append_nil]
      · exact .changes hsound hp trivial (by decide) rfl (fun h => absurd h (by decide))
          fun h => absurd h (by decide)

/-- Every call keeps the files of the other processes, and the lock comes before everything else. -/
theorem gone_call {c : PidCall} (answer : Option Nat) (hsound : w.Sound)
    (hp : w.process pid = some ⟨pidFile, .calling c⟩) :
    w.Gone pid ⟨pidFile, .calling c⟩ (w.call pid ⟨pidFile, .calling c⟩ answer c).1 := by
  cases c with
  | setLock => exact gone_setLock hsound hp
  | write => exact gone_write hsound hp
  | openFile => cases answer <;> exact .stays hsound hp (by decide) (by decide) (by decide)
  | ftruncate =>
      cases answer with
      | none => exact .stays hsound hp (by decide) (by decide) (by decide)
      | some n => exact .changes hsound hp trivial trivial rfl (fun _ => rfl) fun h => absurd h (by decide)
  | getFd => cases answer <;> exact .stays hsound hp (by decide) (by decide) (by decide)
  | setFd => cases answer <;> exact .stays hsound hp (by decide) (by decide) (by decide)

end calls

/-! ### The other steps -/

section steps

variable {w w' : PidWorld} {pid : Nat} {shown trace : List PidEvent} {path : Bytes}

theorem at_exit {other : Nat} {point : PidPoint} :
    (w.exit pid).At path other point ↔ other ≠ pid ∧ w.At path other point := by
  by_cases hother : other = pid
  · have hgone : (w.exit pid).process other = none := by
      rw [hother]
      exact Function.update_self pid none w.process
    rw [At, hgone]
    refine iff_of_false (fun h => ?_) (fun h => h.1 hother)
    obtain ⟨p, hp, -⟩ := h
    cases hp
  · have hsame : (w.exit pid).process other = w.process other := Function.update_of_ne hother _ w.process
    rw [At, At, hsame]
    exact (and_iff_right hother).symm

theorem content_exit : ((w.exit pid).file path).content = (w.file path).content := by
  simp only [exit]
  split <;> rfl

theorem Sound.exit (hsound : w.Sound) : (w.exit pid).Sound where
  holder := by
    intro path other
    have hinside : (w.exit pid).Inside path other ↔ other ≠ pid ∧ w.Inside path other := by
      simp only [Inside, at_exit]
      constructor
      · intro h
        obtain ⟨point, ⟨hother, hat⟩, hlocked⟩ := h
        exact ⟨hother, point, hat, hlocked⟩
      · intro h
        obtain ⟨hother, point, hat, hlocked⟩ := h
        exact ⟨point, ⟨hother, hat⟩, hlocked⟩
    rw [hinside, ← hsound.holder]
    simp only [PidWorld.exit]
    split
    · next hheld =>
        rw [hheld]
        refine iff_of_false (fun h => by cases h) (fun h => h.1 (Option.some.inj h.2).symm)
    · next hheld =>
        refine ⟨fun h => ⟨fun hother => hheld (hother ▸ h), h⟩, And.right⟩
  blank := by
    intro path other hat
    rw [content_exit]
    exact hsound.blank path other (at_exit.mp hat).2
  written := by
    intro path other point hat hwritten
    rw [content_exit]
    exact hsound.written path other point (at_exit.mp hat).2 hwritten

theorem Sound.start {pidFile : Bytes} (hsound : w.Sound) (hnew : w.process pid = none) :
    (w.setPoint pid ⟨pidFile, .calling .openFile⟩ (.calling .openFile)).Sound := by
  have hself : ∀ path point,
      (w.setPoint pid ⟨pidFile, .calling .openFile⟩ (.calling .openFile)).At path pid point →
        point = .calling .openFile := by
    intro path point hat
    rw [setPoint_eq] at hat
    exact (at_goes_self.mp hat).2.symm
  have hother : ∀ path other point, other ≠ pid →
      ((w.setPoint pid ⟨pidFile, .calling .openFile⟩ (.calling .openFile)).At path other point ↔
        w.At path other point) := by
    intro path other point hne
    rw [setPoint_eq]
    exact at_goes_other hne
  constructor
  · intro path other
    change (w.file path).holder = some other ↔ _
    rw [hsound.holder]
    by_cases hne : other = pid
    · subst hne
      apply iff_of_false
      · intro hinside
        obtain ⟨point, ⟨p, hp, -⟩, -⟩ := hinside
        rw [hnew] at hp
        cases hp
      · intro hinside
        obtain ⟨point, hat, hlocked⟩ := hinside
        rw [hself path point hat] at hlocked
        exact hlocked
    · simp only [Inside, hother path other _ hne]
  · intro path other hat
    by_cases hne : other = pid
    · subst hne
      cases hself path _ hat
    · exact hsound.blank path other ((hother path other _ hne).mp hat)
  · intro path other point hat hwritten
    by_cases hne : other = pid
    · subst hne
      rw [hself path point hat] at hwritten
      exact hwritten.elim
    · exact hsound.written path other point ((hother path other _ hne).mp hat) hwritten

theorem Sound.step (hsound : w.Sound) (hstep : Step w shown w') : w'.Sound := by
  obtain ⟨m, hmove⟩ := hstep
  cases m with
  | start pid pidFile =>
      rw [move] at hmove
      split at hmove
      · cases hmove
      · next hnew =>
          obtain ⟨rfl, -⟩ := Prod.mk.inj (Option.some.inj hmove)
          exact hsound.start hnew
  | call pid answer =>
      rw [move] at hmove
      split at hmove
      · next pidFile c hp =>
          obtain ⟨f, point, hgone, hgoes⟩ := gone_call answer hsound hp
          have hw : w' = (w.call pid ⟨pidFile, .calling c⟩ answer c).1 :=
            (congrArg Prod.fst (Option.some.inj hmove)).symm
          rw [hw, hgone]
          exact hsound.goes hp hgoes
      · cases hmove
  | exit pid =>
      rw [move, Option.map_eq_some_iff] at hmove
      obtain ⟨p, -, heq⟩ := hmove
      obtain ⟨rfl, -⟩ := Prod.mk.inj heq
      exact hsound.exit

theorem sound_of_run (hrun : Reached trace w) : w.Sound :=
  hrun.invariant_state Sound (fun _ => sound_initial) fun _ _ _ => Sound.step

/-- The lock is refused exactly if a living process has come past it. -/
theorem Sound.refused_iff {pidFile : Bytes} {answer : Option Nat} (hsound : w.Sound)
    (hp : w.process pid = some ⟨pidFile, .calling .setLock⟩) :
    (w.call pid ⟨pidFile, .calling .setLock⟩ answer .setLock).2 =
        [.returned pid errorSystemPidAlreadyRunning] ↔
      ∃ other, w.Inside (PidProcess.path ⟨pidFile, .calling .setLock⟩) other := by
  have hnot : ¬ w.Inside (PidProcess.path ⟨pidFile, .calling .setLock⟩) pid := by
    intro hinside
    exact ((inside_iff hp).mp hinside).2
  simp only [call]
  split
  · next hheld =>
      refine iff_of_true rfl ?_
      rw [Option.any_eq_true] at hheld
      obtain ⟨other, hholder, -⟩ := hheld
      exact ⟨other, (hsound.holder _ other).mp hholder⟩
  · next hfree =>
      apply iff_of_false
      · cases answer with
        | none =>
            intro h
            cases h
        | some n =>
            intro h
            cases h
      · intro h
        obtain ⟨other, hinside⟩ := h
        have hholder := (hsound.holder _ other).mpr hinside
        rw [hholder, Option.any_some, decide_eq_true_iff, Decidable.not_not] at hfree
        exact hnot (hfree ▸ hinside)

/-- A call that the kernel answers as it should. -/
theorem goes_on {pidFile : Bytes} {c : PidCall} (hp : w.process pid = some ⟨pidFile, .calling c⟩)
    (hfree : ¬ c.Locked → (w.file (PidProcess.path ⟨pidFile, .calling c⟩)).holder = none) :
    ∃ shown w', Run (· = w) Step shown w' ∧ w'.process pid = some ⟨pidFile, c.next⟩ ∧
      (¬ c.next.Locked → (w'.file (PidProcess.path ⟨pidFile, c.next⟩)).holder = none) := by
  have hcall : ∀ n, Run (· = w) Step (w.call pid ⟨pidFile, .calling c⟩ (some n) c).2
      (w.call pid ⟨pidFile, .calling c⟩ (some n) c).1 := by
    intro n
    apply Run.single
    refine ⟨.call pid (some n), ?_⟩
    simp only [move, hp]
  cases c with
  | openFile => exact ⟨_, _, hcall 0, Function.update_self pid _ w.process, fun _ => hfree (by decide)⟩
  | setLock =>
      have hnone : (w.file (PidProcess.path ⟨pidFile, .calling .setLock⟩)).holder = none := hfree (by decide)
      have hrun := hcall 0
      simp only [call, hnone, Option.any_none, Bool.false_eq_true, if_false] at hrun
      exact ⟨_, _, hrun, Function.update_self pid _ w.process, fun h => (h trivial).elim⟩
  | ftruncate => exact ⟨_, _, hcall 0, Function.update_self pid _ w.process, fun h => (h trivial).elim⟩
  | write =>
      have hrun := hcall (pidText pid).length
      simp only [call, if_true] at hrun
      exact ⟨_, _, hrun, Function.update_self pid _ w.process, fun h => (h trivial).elim⟩
  | getFd => exact ⟨_, _, hcall 0, Function.update_self pid _ w.process, fun h => (h trivial).elim⟩
  | setFd => exact ⟨_, _, hcall 0, Function.update_self pid _ w.process, fun h => absurd (by decide) h⟩

/-- A pid file that nobody has locked, whatever an ended process has left in it, is for the next one. -/
theorem acquires {pidFile : Bytes} (hnew : w.process pid = none)
    (hfree : (w.file (PidProcess.path ⟨pidFile, .calling .openFile⟩)).holder = none) :
    ∃ shown w', Run (· = w) Step shown w' ∧
      w'.Serves (PidProcess.path ⟨pidFile, .calling .openFile⟩) pid := by
  have hstart : Step w [.started pid pidFile]
      (w.setPoint pid ⟨pidFile, .calling .openFile⟩ (.calling .openFile)) :=
    ⟨.start pid pidFile, by simp only [move, hnew]⟩
  have hp : (w.setPoint pid ⟨pidFile, .calling .openFile⟩ (.calling .openFile)).process pid =
      some ⟨pidFile, .calling .openFile⟩ := Function.update_self pid _ w.process
  obtain ⟨_, _, hopen, hp₁, hfree₁⟩ := goes_on hp fun _ => hfree
  obtain ⟨_, _, hlock, hp₂, hfree₂⟩ := goes_on hp₁ hfree₁
  obtain ⟨_, _, htruncate, hp₃, hfree₃⟩ := goes_on hp₂ hfree₂
  obtain ⟨_, _, hwrite, hp₄, hfree₄⟩ := goes_on hp₃ hfree₃
  obtain ⟨_, _, hget, hp₅, hfree₅⟩ := goes_on hp₄ hfree₄
  obtain ⟨_, w', hset, hp₆, -⟩ := goes_on hp₅ hfree₅
  have hrun := ((((((Run.single hstart).append hopen).append hlock).append htruncate).append hwrite).append
    hget).append hset
  exact ⟨_, w', hrun, _, hp₆, rfl, rfl⟩

/-- A server that has not ended is where it was. -/
theorem Serves.step (hserves : w.Serves path pid) (hsound : w.Sound) (hstep : Step w shown w')
    (halive : .exited pid ∉ shown) : w'.Serves path pid := by
  obtain ⟨m, hmove⟩ := hstep
  have hat : w.At path pid (.returned errorSuccess) := hserves
  obtain ⟨p, hp, -, hpoint⟩ := hserves
  cases m with
  | start other pidFile =>
      rw [move] at hmove
      split at hmove
      · cases hmove
      · next hnew =>
          obtain ⟨rfl, -⟩ := Prod.mk.inj (Option.some.inj hmove)
          have hne : pid ≠ other := by
            rintro rfl
            cases hp.symm.trans hnew
          rw [setPoint_eq]
          exact (at_goes_other hne).mpr hat
  | call other answer =>
      rw [move] at hmove
      split at hmove
      · next pidFile c hother =>
          have hne : pid ≠ other := by
            rintro rfl
            rw [hother] at hp
            obtain rfl := Option.some.inj hp
            cases hpoint
          obtain ⟨f, point, hgone, -⟩ := gone_call answer hsound hother
          have hw : w' = (w.call other ⟨pidFile, .calling c⟩ answer c).1 :=
            (congrArg Prod.fst (Option.some.inj hmove)).symm
          rw [hw, hgone]
          exact (at_goes_other hne).mpr hat
      · cases hmove
  | exit other =>
      rw [move, Option.map_eq_some_iff] at hmove
      obtain ⟨q, -, heq⟩ := hmove
      obtain ⟨rfl, rfl⟩ := Prod.mk.inj heq
      refine at_exit.mpr ⟨?_, hat⟩
      rintro rfl
      exact halive (List.mem_singleton_self _)

/-- Whatever the other processes do. -/
theorem Serves.run (hserves : w.Serves path pid) (hsound : w.Sound) (hrun : Run (· = w) Step shown w')
    (halive : .exited pid ∉ shown) : w'.Serves path pid := by
  have hkept : w'.Sound ∧ (.exited pid ∉ shown → w'.Serves path pid) := by
    refine hrun.invariant (fun shown w' => w'.Sound ∧ (.exited pid ∉ shown → w'.Serves path pid)) ?_ ?_
    · rintro _ rfl
      exact ⟨hsound, fun _ => hserves⟩
    · intro before w₁ more w₂ h hstep
      obtain ⟨hsound₁, hserves₁⟩ := h
      refine ⟨hsound₁.step hstep, fun hnot => ?_⟩
      rw [List.mem_append, not_or] at hnot
      exact (hserves₁ hnot.1).step hsound₁ hstep hnot.2
  exact hkept.2 halive

/-- **One server for each pid file**: of all processes that have been started with it and live, at most
one is past the lock, and that one holds it. A process that has got through `acquire_pid_file` is past the
lock, the file names it, and so it stays until the process ends. A process is told that the server already
runs exactly while another one is past the lock; as soon as none is, a new process gets through. -/
theorem one_server (hrun : Reached trace w) :
    (∀ path pid other, w.Inside path pid → w.Inside path other → pid = other) ∧
    (∀ path pid, (w.file path).holder = some pid ↔ w.Inside path pid) ∧
    (∀ path pid other, w.Serves path pid → w.Serves path other → pid = other) ∧
    (∀ path pid, w.Serves path pid → w.Inside path pid ∧ (w.file path).content = pidText pid) ∧
    (∀ path pid shown w', w.Serves path pid → Run (· = w) Step shown w' → .exited pid ∉ shown →
      w'.Serves path pid ∧ (w'.file path).holder = some pid ∧ (w'.file path).content = pidText pid) ∧
    (∀ pid pidFile answer, w.process pid = some ⟨pidFile, .calling .setLock⟩ →
      ((w.call pid ⟨pidFile, .calling .setLock⟩ answer .setLock).2 =
          [.returned pid errorSystemPidAlreadyRunning] ↔
        ∃ other, w.Inside (PidProcess.path ⟨pidFile, .calling .setLock⟩) other)) ∧
    ∀ pid pidFile, w.process pid = none →
      (∀ other, ¬ w.Inside (PidProcess.path ⟨pidFile, .calling .openFile⟩) other) →
      ∃ shown w', Run (· = w) Step shown w' ∧
        w'.Serves (PidProcess.path ⟨pidFile, .calling .openFile⟩) pid := by
  have hsound : w.Sound := sound_of_run hrun
  have hinside : ∀ {w : PidWorld} {path pid}, w.Serves path pid → w.Inside path pid := fun h => ⟨_, h, by decide⟩
  refine ⟨fun path pid other => hsound.unique, hsound.holder,
    fun path pid other h hother => hsound.unique (hinside h) (hinside hother), ?_, ?_, ?_, ?_⟩
  · intro path pid h
    exact ⟨hinside h, hsound.written path pid _ h (by decide)⟩
  · intro path pid shown w' h hlater halive
    have hserves := h.run hsound hlater halive
    have hsound' : w'.Sound := sound_of_run (hrun.append hlater)
    exact ⟨hserves, (hsound'.holder path pid).mpr (hinside hserves), hsound'.written path pid _ hserves (by decide)⟩
  · intro pid pidFile answer hp
    exact hsound.refused_iff hp
  · intro pid pidFile hnew hnobody
    apply acquires hnew
    apply Option.eq_none_iff_forall_ne_some.mpr
    intro other hholder
    exact hnobody other ((hsound.holder _ other).mp hholder)

/-- No process, and a pid file that an earlier server has left behind. -/
def afterCrash : PidWorld := ⟨fun _ => ⟨text "31415", none⟩, fun _ => none⟩

/-- The second process opens the file before the first one has the lock, and asks for the lock in vain. -/
def twoStarts : List Move :=
  [.start 7 [], .start 8 (text "objs/lpush.pid"), .call 7 (some 3), .call 8 (some 3), .call 7 (some 0),
    .call 7 (some 0), .call 8 (some 0), .call 7 (some 1), .call 7 (some 0), .call 7 (some 1)]

def startedTwice : List PidEvent :=
  [.started 7 [], .started 8 (text "objs/lpush.pid"), .returned 8 errorSystemPidAlreadyRunning,
    .returned 7 errorSuccess]

theorem reached_twoStarts :
    ∃ w, Reached startedTwice w ∧ w.process 7 = some ⟨[], .returned errorSuccess⟩ := by
  have hplay : (play move twoStarts afterCrash).map (fun last => (last.2, last.1.process 7)) =
      some (startedTwice, some ⟨[], .returned errorSuccess⟩) := by decide
  obtain ⟨⟨w, shown⟩, hw, hlast⟩ := Option.map_eq_some_iff.mp hplay
  obtain ⟨rfl, hp⟩ := Prod.mk.inj hlast
  have hstart : Reached [] afterCrash := .start ⟨fun _ => rfl, fun _ => rfl⟩
  exact ⟨w, hstart.append (Run.of_play move (fun m _ _ hmove => ⟨m, hmove⟩) hw), hp⟩

theorem one_server_twoStarts : ∃ w, Reached startedTwice w ∧
    w.Serves defaultPidFileName 7 ∧ (w.file defaultPidFileName).holder = some 7 ∧
    (w.file defaultPidFileName).content = pidText 7 ∧
    ∀ other, w.Inside defaultPidFileName other → 7 = other := by
  obtain ⟨w, hrun, hp⟩ := reached_twoStarts
  have hserves : w.Serves defaultPidFileName 7 := ⟨_, hp, by decide, rfl⟩
  obtain ⟨hunique, hholder, -, hserving, -⟩ := one_server hrun
  obtain ⟨hinside, hcontent⟩ := hserving _ 7 hserves
  exact ⟨w, hrun, hserves, (hholder _ 7).mpr hinside, hcontent, fun other => hunique _ 7 other hinside⟩

end steps

end PidWorld

end LinkedonPush
