/-!
# Faults and disks

What is done with a path may fail for the path, or because the disk does not do what it is asked.
A disk is told by what it answers to the calls that change something, one answer for each call.  A
call that is interrupted is made again, and only the answer to the last one counts.

* `Fault` — why something cannot be done; `Fault.message` is the wording.
* `DiskAnswer`, `Disk` — the answers of a disk.
* `Disk.MayFail`, `Disk.IsSound` — whether a disk fails with a fault, or never does.
* `Disk.ask` — a call that changes something as a whole or not at all.
* `Disk.write` — the calls that write some bytes, of which a part may be written.
* `Disk.write_spec` — how these calls end.
-/

namespace CallHarvest

/-- Why something cannot be done. -/
inductive Fault
  | notFound
  | exists
  | notDirectory
  | isDirectory
  | nameTooLong
  | tooManyLinks
  | zeroInName
  | notText
  | inputOutput
  | accessDenied
  | fileTooLarge
  | noSpace
  | readOnly
  | quotaExceeded
  | nothingWritten
deriving DecidableEq, Repr

/-- The wording of a fault. -/
def Fault.message : Fault → String
  | .notFound => "No such file or directory (os error 2)"
  | .exists => "File exists (os error 17)"
  | .notDirectory => "Not a directory (os error 20)"
  | .isDirectory => "Is a directory (os error 21)"
  | .nameTooLong => "File name too long (os error 36)"
  | .tooManyLinks => "Too many levels of symbolic links (os error 40)"
  | .zeroInName => "file name contained an unexpected NUL byte"
  | .notText => "stream did not contain valid UTF-8"
  | .inputOutput => "Input/output error (os error 5)"
  | .accessDenied => "Permission denied (os error 13)"
  | .fileTooLarge => "File too large (os error 27)"
  | .noSpace => "No space left on device (os error 28)"
  | .readOnly => "Read-only file system (os error 30)"
  | .quotaExceeded => "Disk quota exceeded (os error 122)"
  | .nothingWritten => "failed to write whole buffer"

/-! ### Answers -/

/-- What a disk answers to a call that changes something. -/
inductive DiskAnswer
  /-- It does it; of bytes that are to be written it takes the given number at most. -/
  | done (bytes : Nat)
  /-- It does not. -/
  | failed (fault : Fault)
deriving DecidableEq, Repr

/-- What a disk answers to the calls to come.  When these answers are used up, it does all that it
is asked. -/
abbrev Disk : Type := List DiskAnswer

/-- How many bytes a call writes, if any.  One that writes none is a failure. -/
def DiskAnswer.taken : DiskAnswer → Except Fault Nat
  | .done 0 => .error .nothingWritten
  | .done bytes => .ok bytes
  | .failed fault => .error fault

namespace Disk

/-- Whether a disk fails with a fault before its answers are used up. -/
def MayFail (disk : Disk) (fault : Fault) : Prop :=
  ∃ answer ∈ disk, answer.taken = .error fault

/-- Whether a disk never fails to write. -/
def IsSound (disk : Disk) : Prop :=
  ∀ fault, ¬ disk.MayFail fault

/-- A call that changes something as a whole or not at all. -/
def ask : Disk → Disk × Except Fault Unit
  | [] => ([], .ok ())
  | .done _ :: disk => (disk, .ok ())
  | .failed fault :: disk => (disk, .error fault)

/-- How many of some bytes were written, whether all of them, and what the disk answers later. -/
structure Written where
  bytes : Nat
  result : Except Fault Unit
  disk : Disk

/-- The calls that write some bytes: as long as there are some left, these are asked for.  The first
call that fails is the last one. -/
def write : Disk → Nat → Written
  | [], bytes => ⟨bytes, .ok (), []⟩
  | answer :: disk, bytes =>
    if bytes = 0 then ⟨0, .ok (), answer :: disk⟩
    else
      match answer.taken with
      | .error fault => ⟨0, .error fault, disk⟩
      | .ok taken =>
        let rest := write disk (bytes - taken)
        { rest with bytes := min taken bytes + rest.bytes }

theorem ask_suffix (disk : Disk) : disk.ask.1 <:+ disk := by
  cases disk with
  | nil => exact List.suffix_rfl
  | cons answer disk => cases answer <;> exact List.suffix_cons _ disk

theorem MayFail.of_suffix {disk later : Disk} {fault : Fault} (h : later.MayFail fault)
    (hlater : later <:+ disk) : disk.MayFail fault := by
  obtain ⟨answer, hanswer, htaken⟩ := h
  exact ⟨answer, hlater.mem hanswer, htaken⟩

theorem isSound_nil : IsSound [] := by
  rintro fault ⟨answer, h, -⟩
  exact absurd h List.not_mem_nil

theorem IsSound.of_suffix {disk later : Disk} (h : disk.IsSound) (hlater : later <:+ disk) :
    later.IsSound :=
  fun fault hfail => h fault (hfail.of_suffix hlater)

/-- **How the calls that write some bytes end.**  All of them are written; or the disk fails, and
some are not. -/
theorem write_spec (disk : Disk) (bytes : Nat) :
    ((disk.write bytes).result = .ok () ∧ (disk.write bytes).bytes = bytes ∨
      ∃ fault, (disk.write bytes).result = .error fault ∧ (disk.write bytes).bytes < bytes ∧
        disk.MayFail fault) ∧
    (disk.write bytes).disk <:+ disk := by
  induction disk generalizing bytes with
  | nil => exact ⟨Or.inl ⟨rfl, rfl⟩, List.suffix_rfl⟩
  | cons answer disk ih =>
    rw [write]
    by_cases hbytes : bytes = 0
    · rw [if_pos hbytes]
      exact ⟨Or.inl ⟨rfl, hbytes.symm⟩, List.suffix_rfl⟩
    · rw [if_neg hbytes]
      cases htaken : answer.taken with
      | error fault =>
        refine ⟨Or.inr ⟨fault, rfl, Nat.pos_of_ne_zero hbytes, answer, ?_, htaken⟩, ?_⟩
        · exact List.mem_cons_self
        · exact List.suffix_cons answer disk
      | ok taken =>
        obtain ⟨hresult, hdisk⟩ := ih (bytes - taken)
        refine ⟨?_, hdisk.trans (List.suffix_cons answer disk)⟩
        rcases hresult with ⟨hok, hall⟩ | ⟨fault, herror, hpart, hfail⟩
        · refine Or.inl ⟨hok, ?_⟩
          dsimp only
          omega
        · refine Or.inr ⟨fault, herror, ?_, hfail.of_suffix (List.suffix_cons answer disk)⟩
          dsimp only
          omega

end Disk

end CallHarvest
