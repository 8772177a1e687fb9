import SlabHeap.Proofs.Isolation

namespace SlabHeap

/-! What the work on one heap leaves alone.

`Heap.Within` says that nothing changed but what belongs to a heap: words of its slabs and of storage
that was not reserved before, and frames of its contexts. Other heaps stay consistent then,
`Heap.Consistent.elsewhere`.
-/

namespace Heap

variable {heap mid after other prepared : Heap} {machine between final : Machine} {memory : Memory}
  {tiling taken swept divided : Slab → List Block} {block : Block} {slab : Slab}
  {context : Option Context} {live : Nat → Prop}

/-- No slab of one heap overlaps one of the other. -/
def Apart (heap other : Heap) : Prop :=
  ∀ slab ∈ heap.slabs, ∀ stranger ∈ other.slabs, slab.Apart stranger

/-- From one machine to the other only what belongs to a heap changed, which became `after`. -/
structure Within (heap after : Heap) (machine final : Machine) : Prop where
  slabs : ∀ slab ∈ after.slabs, slab ∈ heap.slabs ∨
    final.Hosts slab ∧ machine.Vacant slab
  pages : machine.pages.taken ⊆ final.pages.taken
  outside : ∀ address, machine.Reserved address →
    (∀ slab ∈ heap.slabs, address < slab.start ∨ slab.stop ≤ address) →
      final.memory.read address = machine.memory.read address
  frames : ∀ number frame, machine.frame? number = some frame →
    machine.Reserved frame.context.address → heap.contains frame.context.address = false →
      final.frame? number = some frame

theorem Apart.symm (apart : heap.Apart other) : other.Apart heap :=
  fun stranger inOther slab inHeap => (apart slab inHeap stranger inOther).symm

theorem Apart.not_contains (apart : heap.Apart other) {address : Nat}
    (inside : other.contains address = true) : heap.contains address = false := by
  obtain ⟨stranger, inOther, covers⟩ := List.any_eq_true.mp inside
  refine List.any_eq_false.mpr fun slab inHeap both => ?_
  have := apart slab inHeap stranger inOther
  have := Slab.contains_iff.mp both
  have := Slab.contains_iff.mp covers
  simp only [Slab.Apart] at *
  omega

namespace Within

theorem of_inside (inside : heap.Inside machine final) (steady : machine.Steady final)
    (slabs : after.slabs = heap.slabs) : heap.Within after machine final where
  slabs _ inAfter := .inl (slabs ▸ inAfter)
  pages := steady.taken_subset
  outside address _ apart := inside address apart
  frames number _ found _ _ := (Machine.frame?_congr steady.frames number).trans found

theorem of_quiet (quiet : machine.Quiet final) (slabs : after.slabs = heap.slabs) :
    heap.Within after machine final :=
  of_inside (fun _ _ => by rw [quiet.memory]) quiet.toSteady slabs

theorem grown (created : slab.Created heap.shapes machine final) :
    heap.Within (heap.grown slab) machine final where
  slabs other member := by
    rcases List.mem_append.mp member with inHeap | isNew
    · exact .inl inHeap
    · obtain rfl := List.mem_singleton.mp isNew
      exact .inr ⟨created.hosted, created.vacant⟩
  pages := created.pages
  outside address reserved _ := created.outside address reserved
  frames number _ found _ _ := (Machine.frame?_congr created.frames number).trans found

theorem trans (first : heap.Within mid machine between) (second : mid.Within after between final) :
    heap.Within after machine final where
  slabs slab inAfter := by
    rcases second.slabs slab inAfter with inMid | ⟨hosted, vacant⟩
    · rcases first.slabs slab inMid with inHeap | ⟨hosted, vacant⟩
      · exact .inl inHeap
      · exact .inr ⟨hosted.keep second.pages, vacant⟩
    · exact .inr ⟨hosted, vacant.before first.pages⟩
  pages := List.Subset.trans first.pages second.pages
  outside address reserved apart := by
    rw [second.outside address (reserved.keep first.pages) fun slab inMid => ?_,
      first.outside address reserved apart]
    rcases first.slabs slab inMid with inHeap | ⟨_, vacant⟩
    · exact apart slab inHeap
    · exact vacant.outside reserved
  frames number frame found reserved foreign := by
    refine second.frames number frame (first.frames number frame found reserved foreign)
      (reserved.keep first.pages) ?_
    refine List.any_eq_false.mpr fun slab inMid covers => ?_
    rcases first.slabs slab inMid with inHeap | ⟨_, vacant⟩
    · exact List.any_eq_false.mp foreign slab inHeap covers
    · have inside := Slab.contains_iff.mp covers
      have outside := vacant.outside reserved
      omega

theorem apart (within : heap.Within after machine final) (apart : heap.Apart other)
    (hosted : ∀ slab ∈ other.slabs, machine.Hosts slab) : after.Apart other := by
  intro slab inAfter stranger inOther
  rcases within.slabs slab inAfter with inHeap | ⟨_, vacant⟩
  · exact apart slab inHeap stranger inOther
  · exact vacant.apart (hosted stranger inOther)

theorem untouched (within : heap.Within after machine final) (apart : heap.Apart other)
    (hosted : ∀ slab ∈ other.slabs, machine.Hosts slab) : other.Untouched machine final := by
  intro stranger inOther address above below
  refine within.outside address ((hosted stranger inOther).reserved above below) fun slab inHeap => ?_
  have := apart slab inHeap stranger inOther
  simp only [Slab.Apart] at this
  omega

theorem reroot (within : heap.Within after machine final) (slabs : mid.slabs = heap.slabs)
    (afterSlabs : other.slabs = after.slabs) : mid.Within other machine final where
  slabs := by
    rw [slabs, afterSlabs]
    exact within.slabs
  pages := within.pages
  outside := by
    rw [slabs]
    exact within.outside
  frames number frame found reserved foreign := by
    refine within.frames number frame found reserved ?_
    simpa only [Heap.contains, slabs] using foreign

end Within

theorem Consistent.elsewhere (consistent : other.Consistent tiling machine)
    (within : heap.Within after machine final) (apart : heap.Apart other) :
    other.Consistent tiling final := by
  refine consistent.keep (within.untouched apart consistent.hosted)
    (fun number frame found owned => ?_) within.pages
  obtain ⟨slab, inOther, covers⟩ := List.any_eq_true.mp owned
  have reserved := (consistent.hosted slab inOther).reserved_of_contains covers
  exact within.frames number frame found reserved (apart.not_contains owned)

theorem Collected.within (collected : heap.Collected tiling swept machine final live)
    (slabs : after.slabs = heap.slabs) : heap.Within after machine final :=
  .of_inside collected.outside collected.steady slabs

theorem Obtained.within (obtained : heap.Obtained tiling taken machine.memory final.memory block)
    (steady : machine.Steady final) : heap.Within heap machine final :=
  .of_inside obtained.outside steady rfl

theorem Prepared.within (prepares : heap.Prepared context tiling machine prepared divided final) :
    heap.Within prepared machine final := by
  cases prepares with
  | ready quiet => exact .of_quiet quiet rfl
  | collected collected quiet => exact (collected.within rfl).trans (.of_quiet quiet rfl)
  | @grown stats swept mid final slab collected created =>
      have counted : heap.Within (heap.counted stats) machine mid := collected.within rfl
      exact counted.trans (.grown created)

end Heap

end SlabHeap
