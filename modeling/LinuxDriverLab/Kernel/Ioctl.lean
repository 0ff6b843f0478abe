import LinuxDriverLab.Kernel.UserCopy

/-!
# ioctl commands and arguments
-/

namespace LinuxDriverLab

/-- `_IOC`: direction, payload size, type and number of a command in 32 bits -/
def ioc (dir type nr size : Nat) : Nat := dir <<< 30 ||| size <<< 16 ||| type <<< 8 ||| nr

def io (type nr : Nat) : Nat := ioc 0 type nr 0
def iow (type nr size : Nat) : Nat := ioc 1 type nr size
def ior (type nr size : Nat) : Nat := ioc 2 type nr size
def iowr (type nr size : Nat) : Nat := ioc 3 type nr size

def sizeofInt : Nat := 4

/-- The `int` that an argument points at: its value where it can be read, and whether it can be
written. -/
structure UserInt where
  value : Option Int
  writable : Bool

structure IoctlResult where
  ret : Except Errno Unit
  out : Option Int
deriving DecidableEq

end LinuxDriverLab
