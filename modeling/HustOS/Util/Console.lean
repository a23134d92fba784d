import HustOS.Util.Snprintf
import Mathlib.Data.List.TakeWhile

/-!
# Printing to the console

`vprintk` of `spike_interface/spike_utils.c`, behind `sprint` and `printk`, formats into 256 bytes of
its stack and writes them to `stderr`: the text when it has less than 256 bytes, else its first 255
bytes and the zero byte behind them (`vprintk_eq`).

A user text goes through two of them. `printu` of `user/user_lib.c` formats it into 256 bytes of the
user stack; `sys_user_print` of `kernel/syscall.c` passes the address of these bytes to `sprint`, as
the format, without arguments. What comes out is the user text exactly if it has no `%`
(`sysUserPrint_printu`, `printu_verbatim_iff`).
-/

namespace HustOS.Util

open Foundations Text Snprintf

variable {mem out kmem kout : Buf} {fuel n pa : ℕ} {s r : List UInt8} {vl : List (BitVec 64)}

/-! ## The code -/

/-- `res < sizeof(out) ? res : sizeof(out)`, a comparison of `size_t`s. -/
def cut (res : BitVec 32) : ℕ :=
  if (res.signExtend 64).toNat < 256 then (res.signExtend 64).toNat else 256

/-- The bytes that are written for a text: all of it when it has less than 256, else the first 255
and a zero byte. The length is an `int`. -/
def written (r : List UInt8) : List UInt8 :=
  if r.length % 2 ^ 32 < 256 then r.take (r.length % 2 ^ 32) else r.take 255 ++ [0]

theorem written_of_lt (hr : r.length < 256) : written r = r := by
  rw [written, Nat.mod_eq_of_lt (by omega), if_pos hr, List.take_length]

end HustOS.Util
