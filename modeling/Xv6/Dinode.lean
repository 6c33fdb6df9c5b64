import Xv6.Block

/-!
# On-disk inodes

The inode blocks hold `IPB` inodes each, from block `inodestart` on.
-/

namespace Xv6

def ndirect : ℕ := 12

/-- `BSIZE / sizeof(struct dinode)`. -/
def ipb : ℕ := bsize / 64

instance : NeZero ipb := ⟨by decide⟩

structure Dinode where
  type : Int16
  major : Int16
  minor : Int16
  nlink : Int16
  size : UInt32
  addrs : Fin (ndirect + 1) → UInt32
  deriving DecidableEq

/-- `memset(dip, 0, sizeof(*dip)); dip->type = type`. -/
def Dinode.fresh (type : Int16) : Dinode where
  type := type
  major := 0
  minor := 0
  nlink := 0
  size := 0
  addrs := fun _ => 0

/-- The fields of the super block that say where inodes are. -/
structure InodeArea where
  ninodes : ℕ
  inodestart : ℕ

def InodeArea.iblock (sb : InodeArea) (inum : ℕ) : ℕ × Fin ipb :=
  (inum / ipb + sb.inodestart, Fin.ofNat ipb inum)

theorem InodeArea.iblock_injective (sb : InodeArea) : Function.Injective sb.iblock := by
  intro m n h
  simp only [iblock, Prod.mk.injEq, Fin.ext_iff, Fin.val_ofNat] at h
  have hm := Nat.div_add_mod m ipb
  have hn := Nat.div_add_mod n ipb
  have hdiv : m / ipb = n / ipb := by omega
  rw [← hm, ← hn, hdiv, h.2]

end Xv6
