import Mathlib

/-!
# Circular doubly linked lists

`Path f a l b` says that following the link `f` from `a` leads through `l` to
`b`.  A circular list has a path from its head to itself in both directions.
-/

namespace Links

open Function (update update_self update_of_ne)

variable {α : Type*} {f g : α → α} {a b c x h : α} {l l' : List α}

def Path (f : α → α) (a : α) : List α → α → Prop
  | [], b => f a = b
  | x :: l, b => f a = x ∧ Path f x l b

theorem Path.congr (hpath : Path f a l b) (hc : g c = f a)
    (hl : ∀ u ∈ l, g u = f u) : Path g c l b := by
  induction l generalizing a c with
  | nil => exact hc.trans hpath
  | cons x l ih =>
    rw [List.forall_mem_cons] at hl
    exact ⟨hc.trans hpath.1, ih hpath.2 hl.1 hl.2⟩

theorem path_append : Path f a (l ++ x :: l') b ↔ Path f a l x ∧ Path f x l' b := by
  induction l generalizing a with
  | nil => exact Iff.rfl
  | cons y l ih => exact (and_congr_right fun _ => ih).trans and_assoc.symm

/-- The links of the nodes. -/
structure Nodes (α : Type*) where
  next : α → α
  prev : α → α

/-- The nodes after `h` are those of `l`. -/
def Circular (r : Nodes α) (h : α) (l : List α) : Prop :=
  (h :: l).Nodup ∧ Path r.next h l h ∧ Path r.prev h l.reverse h

/-- The first node of a path that is walked from `f a`. -/
def scan [DecidableEq α] (f : α → α) (h : α) (p : α → Bool) : ℕ → α → Option α
  | 0, _ => none
  | rounds + 1, b =>
    if b = h then none else if p b then some b else scan f h p rounds (f b)

theorem scan_eq_find [DecidableEq α] (p : α → Bool) {rounds : ℕ} (hpath : Path f a l h)
    (hh : h ∉ l) (hrounds : l.length < rounds) : scan f h p rounds (f a) = l.find? p := by
  induction rounds generalizing a l with
  | zero => omega
  | succ rounds ih =>
    cases l with
    | nil => exact if_pos hpath
    | cons x l =>
      obtain ⟨rfl, hpath⟩ := hpath
      rw [List.mem_cons, not_or] at hh
      rw [scan, if_neg (Ne.symm hh.1), List.find?_cons, ih hpath hh.2 (by simpa using hrounds)]
      cases p (f a) <;> rfl

section

variable [DecidableEq α]

/-- `f` is made to skip `x`, whose predecessor is `g x`. -/
theorem Path.skip (hnodup : (h :: (l ++ x :: l')).Nodup) (hf : Path f h (l ++ x :: l') h)
    (hg : Path g h (l ++ x :: l').reverse h) : Path (update f (g x) (f x)) h (l ++ l') h := by
  rw [List.reverse_append, List.reverse_cons, List.append_assoc,
    List.singleton_append, path_append] at hg
  have hrest := (path_append.mp hf).2
  have hhead := (path_append.mp hf).1
  rw [List.nodup_cons] at hnodup
  obtain rfl | ⟨m, y, rfl⟩ := l.eq_nil_or_concat
  · have hgx : g x = h := hg.2
    rw [hgx]
    refine hrest.congr (update_self _ _ _) fun u hu => update_of_ne ?_ _ _
    rintro rfl
    exact hnodup.1 (by simp [hu])
  · rw [List.concat_eq_append] at *
    have hgx : g x = y := by
      rw [List.reverse_append] at hg
      exact hg.2.1
    rw [List.append_assoc, List.singleton_append, path_append, hgx]
    have hdisj := hnodup.2
    simp only [List.append_assoc, List.singleton_append] at hdisj
    refine ⟨(path_append.mp hhead).1.congr (update_of_ne ?_ _ _) fun u hu => update_of_ne ?_ _ _,
      hrest.congr (update_self _ _ _) fun u hu => update_of_ne ?_ _ _⟩
    · rintro rfl
      exact hnodup.1 (by simp)
    · rintro rfl
      exact List.disjoint_of_nodup_append hdisj hu (by simp)
    · rintro rfl
      simp_all [List.nodup_append]

/-- `x->next->prev = x->prev; x->prev->next = x->next`. -/
def unlink (x : α) (r : Nodes α) : Nodes α := let prev := update r.prev (r.next x) (r.prev x)
  ⟨update r.next (prev x) (r.next x), prev⟩

/-- `x->next = h->next; x->prev = h; h->next->prev = x; h->next = x`. -/
def insertFirst (h x : α) (r : Nodes α) : Nodes α := let next := update r.next x (r.next h)
  let prev := update (update r.prev x h) (next h) x
  ⟨update next h x, prev⟩

variable {r : Nodes α}

theorem Circular.unlink (hr : Circular r h (l ++ x :: l')) : Circular (unlink x r) h (l ++ l') := by
  obtain ⟨hnodup, hnext, hprev⟩ := hr
  have hne : x ≠ r.next x := by
    have hpath := (path_append.mp hnext).2
    cases l' with
    | nil =>
      rw [show r.next x = h from hpath]
      rintro rfl
      simp at hnodup
    | cons y l' =>
      rw [hpath.1]
      rintro rfl
      simp [List.nodup_append] at hnodup
  refine ⟨hnodup.sublist ?_, ?_, ?_⟩
  · exact ((List.sublist_cons_self x l').append_left l).cons_cons h
  · simp only [Links.unlink, update_of_ne hne]
    exact hnext.skip hnodup hprev
  · have hrev : (l ++ x :: l').reverse = l'.reverse ++ x :: l.reverse := by simp
    rw [List.reverse_append]
    refine Path.skip ?_ (hrev ▸ hprev) ?_
    · rw [← hrev, List.nodup_cons, List.mem_reverse, List.nodup_reverse]
      exact List.nodup_cons.mp hnodup
    · rw [← hrev, List.reverse_reverse]
      exact hnext

theorem Circular.insertFirst (hr : Circular r h l) (hx : x ∉ h :: l) :
    Circular (insertFirst h x r) h (x :: l) := by
  obtain ⟨hnodup, hnext, hprev⟩ := hr
  rw [List.mem_cons, not_or] at hx
  have hh := (List.nodup_cons.mp hnodup).1
  have hhead : update r.next x (r.next h) h = r.next h := update_of_ne (Ne.symm hx.1) _ _
  refine ⟨List.nodup_cons.mpr ⟨?_, List.nodup_cons.mpr
    ⟨hx.2, (List.nodup_cons.mp hnodup).2⟩⟩, ⟨update_self _ _ _, ?_⟩, ?_⟩
  · simp [hh, Ne.symm hx.1]
  · refine hnext.congr ?_ fun u hu => ?_
    · simp [Links.insertFirst, hx.1]
    · have hu' : u ≠ h ∧ u ≠ x := by
        constructor <;> (rintro rfl; simp_all)
      simp [Links.insertFirst, hu'.1, hu'.2]
  · rw [List.reverse_cons, path_append]
    simp only [Links.insertFirst, hhead]
    cases l with
    | nil =>
      have hnh : r.next h = h := hnext
      exact ⟨by simp [Path, hnh], by simp [Path, hnh, hx.1]⟩
    | cons y l =>
      rw [hnext.1]
      rw [List.reverse_cons, path_append] at hprev
      rw [List.reverse_cons, path_append]
      have hy : x ≠ y ∧ h ≠ y := by
        constructor <;> (rintro rfl; simp_all)
      refine ⟨⟨hprev.1.congr ?_ fun u hu => ?_, ?_⟩, ?_⟩
      · rw [update_of_ne hy.2, update_of_ne (Ne.symm hx.1)]
      · have hu' : u ≠ x ∧ u ≠ y := by
          constructor <;> (rintro rfl; simp_all)
        rw [update_of_ne hu'.2, update_of_ne hu'.1]
      · exact update_self _ _ _
      · exact (update_of_ne hy.1 _ _).trans (update_self _ _ _)

end

end Links
