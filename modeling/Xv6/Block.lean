import Xv6.Lib.Bytes

/-!
# Disk blocks

A block is `BSIZE` bytes.  The kernel also looks at a block as an array of
little-endian 32-bit words: the log header, the indirect blocks and the
`addrs` of an inode are read and written that way.
-/

namespace Xv6

def bsize : ℕ := 1024

/-- Contents of a disk block. -/
abbrev Block := Fin bsize → UInt8

/-- `((uint*)data)[i]`. -/
def Block.word (b : Block) (i : ℕ) : ℕ := Bytes.readLE b (4 * i) 4

/-- `((uint*)data)[i] = v`. -/
def Block.setWord (b : Block) (i v : ℕ) : Block := Bytes.writeLE b (4 * i) 4 v

theorem Block.word_lt (b : Block) (i : ℕ) : b.word i < 2 ^ 32 := Bytes.readLE_lt b (4 * i) 4

theorem Block.word_setWord_self (b : Block) {i v : ℕ} (hi : i < bsize / 4) (hv : v < 2 ^ 32) :
    (b.setWord i v).word i = v := by
  unfold Block.word Block.setWord
  rw [Bytes.readLE_writeLE_self b (by unfold bsize at *; omega)]
  exact Nat.mod_eq_of_lt hv

theorem Block.word_setWord_of_ne (b : Block) {i j : ℕ} (v : ℕ)
    (hne : j ≠ i) : (b.setWord i v).word j = b.word j := by
  unfold Block.word Block.setWord
  exact Bytes.readLE_writeLE_disjoint b (by omega)

end Xv6
