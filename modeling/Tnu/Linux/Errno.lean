/-
**The error numbers of the Linux layer**, from `compat/linux/syscall/linux_errno.h`.
-/

import Mathlib.Data.Int.Notation

set_option autoImplicit false

namespace Tnu.Linux

abbrev linuxEio : ℤ := 5

abbrev linuxEbadf : ℤ := 9

abbrev linuxEnomem : ℤ := 12

abbrev linuxEfault : ℤ := 14

abbrev linuxEnotdir : ℤ := 20

abbrev linuxEinval : ℤ := 22

end Tnu.Linux
