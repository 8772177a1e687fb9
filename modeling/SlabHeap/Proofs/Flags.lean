import SlabHeap.Header

namespace SlabHeap

/-! Setting and clearing flags, above all the mark. -/

namespace Flags

theorem includes_union (flags added : Flags) : (flags.union added).includes added = true := by
  simp only [includes, union, decide_eq_true_eq, ← UInt8.toBitVec_inj]
  ext index
  simp
  grind

theorem includes_without {removed : Flags} (flags : Flags) (nonempty : removed.bits ≠ 0) :
    (flags.without removed).includes removed = false := by
  have nothing : flags.bits &&& ~~~removed.bits &&& removed.bits = 0 := by
    rw [← UInt8.toBitVec_inj]
    ext index
    simp
  simp only [includes, without, nothing]
  exact decide_eq_false fun none => nonempty none.symm

theorem without_union (flags added : Flags) :
    (flags.union added).without added = flags.without added := by
  simp only [without, union, Flags.mk.injEq, ← UInt8.toBitVec_inj]
  ext index
  simp
  grind

theorem includes_union_of_disjoint {flags added wanted : Flags}
    (disjoint : added.bits &&& wanted.bits = 0) :
    (flags.union added).includes wanted = flags.includes wanted := by
  have same : (flags.bits ||| added.bits) &&& wanted.bits = flags.bits &&& wanted.bits := by
    rw [← UInt8.toBitVec_inj] at disjoint ⊢
    ext index inside
    have nothing := congrArg (·[index]) disjoint
    simp at nothing ⊢
    grind
  simp only [includes, union, same]

theorem includes_without_of_disjoint {flags removed wanted : Flags}
    (disjoint : removed.bits &&& wanted.bits = 0) :
    (flags.without removed).includes wanted = flags.includes wanted := by
  have same : flags.bits &&& ~~~removed.bits &&& wanted.bits = flags.bits &&& wanted.bits := by
    rw [← UInt8.toBitVec_inj] at disjoint ⊢
    ext index inside
    have nothing := congrArg (·[index]) disjoint
    simp at nothing ⊢
    grind
  simp only [includes, without, same]

theorem without_union_of_disjoint {flags added removed : Flags}
    (disjoint : added.bits &&& removed.bits = 0) :
    (flags.union added).without removed = (flags.without removed).union added := by
  simp only [without, union, Flags.mk.injEq]
  rw [← UInt8.toBitVec_inj] at disjoint ⊢
  ext index inside
  have nothing := congrArg (·[index]) disjoint
  simp at nothing ⊢
  grind

theorem union_self (flags added : Flags) : (flags.union added).union added = flags.union added := by
  simp only [union, Flags.mk.injEq, ← UInt8.toBitVec_inj]
  ext index
  simp

/-- The mark is a single bit: flags that do not have it have nothing of it. -/
theorem without_marked {flags : Flags} (unmarked : flags.includes .marked = false) :
    flags.without .marked = flags := by
  obtain ⟨bits⟩ := flags
  have even : ¬ bits &&& 1 = 1 := of_decide_eq_false unmarked
  cases lowest : bits.toBitVec[0] with
  | true =>
      refine absurd (UInt8.toBitVec_inj.mp ?_) even
      ext index
      cases index with
      | zero => simp [lowest]
      | succ index => simp
  | false =>
      have upper : ∀ index : Fin 7, (254#8)[index.val + 1] = true := by decide
      simp only [without, marked, Flags.mk.injEq, ← UInt8.toBitVec_inj]
      ext index
      cases index with
      | zero => simp [lowest]
      | succ index => simpa using fun _ => upper ⟨index, by omega⟩

end Flags

namespace Header

variable {header : Header}

theorem isMarked_fresh (tag : UInt8) : (fresh tag).isMarked = false := by
  simp only [isMarked, fresh]
  decide

theorem isMarked_mark (header : Header) : header.mark.isMarked = true :=
  Flags.includes_union _ _

theorem isMarked_add_broken (header : Header) :
    (header.add .broken).isMarked = header.isMarked :=
  Flags.includes_union_of_disjoint (by decide)

theorem isMarked_remove_owned (header : Header) :
    (header.remove .owned).isMarked = header.isMarked :=
  Flags.includes_without_of_disjoint (by decide)

theorem add_broken_add_broken (header : Header) :
    (header.add .broken).add .broken = header.add .broken :=
  congrArg (fun flags => { header with flags }) (Flags.union_self header.flags .broken)

theorem unmark_add_broken (header : Header) :
    (header.add .broken).unmark = header.unmark.add .broken := by
  have disjoint : Flags.broken.bits &&& Flags.marked.bits = 0 := by decide
  exact congrArg (fun flags => { header with flags }) (Flags.without_union_of_disjoint disjoint)

theorem unmark_mark (unmarked : header.isMarked = false) : header.mark.unmark = header := by
  have flags := (Flags.without_union header.flags .marked).trans (Flags.without_marked unmarked)
  exact congrArg (fun flags => { header with flags }) flags

end Header

end SlabHeap
