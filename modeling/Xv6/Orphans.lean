import Xv6.SystemCalls

/-!
# Directories that have been removed while in use

A directory that is removed while a process is in it, or has it open, lives on
without a link.  Its ".." is not counted any more, so that the parent can be
removed and freed, and then ".." names a free inode or a new one.  And files can
still be created in it, which nothing but its entries names; these are freed
with the directory, and the files are not.  Without such a removal, and as long
as no link count wraps around, neither can happen.
-/

namespace Xv6

open Fs
open Machine

theorem Fs.Ok.reach {s : Fs} (h : s.Ok True 0 0) {i : ℕ} (ha : s.disk.Alloc i)
    (hheld : s.held i = 0) : s.disk.Reach i := by
  have htree := h.inv.tree
  have hi0 : i ≠ 0 := (htree.bound i ha).1.ne'
  have hzero : s.ref i = 0 := by
    rw [h.inv.mem.refs, hheld]
    rfl
  have hnlink : (s.disk.inode i).nlink ≠ 0 := by
    intro hz
    have := h.inv.mem.live i ha hz
    omega
  have hpos : 0 < s.disk.naming i := by
    have hlinks := htree.links i ha
    rw [FsDisk.nlink_ne_zero_iff, hlinks] at hnlink
    simp only [Pi.zero_apply] at hnlink
    omega
  obtain ⟨d, _, hd⟩ := FsDisk.exists_naming hpos
  obtain ⟨hdir, e, he, hcounts⟩ := FsDisk.naming_pos_iff.mp hd
  have hlinked : s.disk.Linked d := ⟨hdir, h.tidy trivial d hdir⟩
  obtain ⟨hinum, hreal | ⟨_, rfl⟩⟩ := htree.counts_cases hdir hi0 he hcounts
  · exact .entry (htree.reach d hlinked) hdir he hreal hinum hi0
  · rw [← hinum]
    exact htree.reach _ (htree.parent d hlinked).1

/-- A directory is made in another one, and removed again by a process that is
not in it. -/
def removeEmpty : List (Slot × FsCall) :=
  [(0, .mkdir [47, 97] fun _ => true), (0, .mkdir [47, 97, 47, 98] fun _ => true),
    (0, .chdir [47, 97]), (0, .unlink [98])]

/-- One process is in a directory when another one removes this directory and
its parent. -/
def removeParent : List (Slot × FsCall) :=
  [(0, .mkdir [47, 97] fun _ => true), (0, .mkdir [47, 97, 47, 98] fun _ => true),
    (0, .fork 1), (1, .chdir [47, 97, 47, 98]), (0, .unlink [47, 97, 47, 98]),
    (0, .unlink [47, 97])]

/-- A process creates a file in its `cwd` when another one has removed this
directory, and leaves it. -/
def createInRemoved : List (Slot × FsCall) :=
  [(0, .mkdir [47, 97] fun _ => true), (0, .fork 1), (1, .chdir [47, 97]),
    (0, .unlink [47, 97]), (1, .open [98] 0x200 (some 3) fun _ => true),
    (1, .close 3), (1, .chdir [47])]

end Xv6
