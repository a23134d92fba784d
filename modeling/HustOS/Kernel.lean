import HustOS.Foundations.Outcome
import Mathlib.Data.Int.Notation
import Mathlib.Data.Nat.Notation

/-!
# What a kernel call can end in

A modelled kernel function returns a value and the new state, or ends in a `Fault`: the kernel
stops the machine (`panic`, `die` of a failed `assert`, `shutdown`), or the C code leaves what the
language defines.
-/

namespace HustOS

/-- Why a kernel call does not return. -/
inductive Fault
  /-- `panic` with its message. -/
  | panic (msg : String)
  /-- A failed `assert`, with the text of the condition. -/
  | assertion (cond : String)
  /-- A load or store through `NULL`, which traps from S-mode (`smode_trap_handler` panics). -/
  | nullDeref
  /-- An access the C language does not define: an index past an array, a freed object, a string
  longer than its buffer. -/
  | undefined (what : String)
  /-- A busy wait whose condition nobody changes. -/
  | spin
  /-- The path leaves RFS for the host file system. -/
  | hostfs
  /-- `shutdown` with its code. -/
  | shutdown (code : ℤ)
  deriving DecidableEq

/-- Bytes per page (`kernel/riscv.h`). -/
abbrev PGSIZE : ℕ := 4096

end HustOS
