import Mathlib

/-!
# Sizes

The constants of `param.h` that the modelled layers depend on.
-/

namespace Xv6

def nproc : ℕ := 64

instance : NeZero nproc := ⟨by decide⟩

def nofile : ℕ := 16
def nfile : ℕ := 100
def ninode : ℕ := 50
def rootDev : ℕ := 1
def maxOpBlocks : ℕ := 10
def logSize : ℕ := maxOpBlocks * 3
def nbuf : ℕ := maxOpBlocks * 3

end Xv6
