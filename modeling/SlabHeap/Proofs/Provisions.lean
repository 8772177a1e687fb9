import SlabHeap.Proofs.PairedOrders

namespace SlabHeap

/-! Orders in parallel heaps.

Orders that stand for each other are met by objects that do, or refused for the same reason,
`Heap.Parallel.perform`. What is written into a block that was given is `Order.ensures_deliver`.
-/

open Block Heap

namespace Order

variable {order : Order} {heap prepared : Heap} {mid : Machine} {start identity : Nat}

theorem run_write (fits : order.size < 0x4000000000000000) : (order.write identity start).run mid =
    .ok () (mid.withMemory (order.contents identity start mid.memory)) := by
  have counted {length : Nat} (small : Layout.Sequence.contents + length < 0x4000000000000000) :
      Value.ofInt length = .ok (.fixnum length) := by
    refine if_pos ⟨by omega, ?_⟩
    simp only [Layout.Sequence.contents] at small
    omega
  cases order with
  | vector root length value =>
      have small : Layout.Sequence.contents + length < 0x4000000000000000 := by
        simp only [size, wordBytes] at fits
        omega
      rw [write, counted small]
      rfl
  | bytes root contents =>
      rw [write, counted fits]
      rfl
  | context | pair | weakBox | ephemeron | object | storage => rfl

theorem refer_of_aligned (order : Order) (aligned : start % 16 = 0) : order.refer start = .ok (.reference start) := by
  have whole : start % 8 = 0 := by omega
  have refers : Value.ofAddress start = .ok (.reference start) := if_pos whole
  cases order <;> first | rfl | exact refers

theorem settle_eq (order : Order) (scratch : prepared.scratch = heap.scratch ++ order.held) :
    order.settle heap prepared = { prepared with scratch := heap.scratch } := by
  have kept : prepared.scratch.take heap.scratch.length = heap.scratch := by
    rw [scratch]
    exact List.take_left
  have whole (none : order.held = []) : prepared = { prepared with scratch := heap.scratch } := by
    rw [none, List.append_nil] at scratch
    rw [← scratch]
  cases order with
  | context | object | storage => exact whole rfl
  | pair | vector | bytes | weakBox | ephemeron => simp only [settle, kept]

/-- A block that was given is filled, and the heap forgets what it held meanwhile. -/
theorem ensures_deliver (aligned : start % 16 = 0) (fits : order.size < 0x4000000000000000)
    (scratch : prepared.scratch = heap.scratch ++ order.held) :
    (order.deliver heap (prepared, .ok start)).Ensures mid fun answer final =>
      answer = ({ prepared with scratch := heap.scratch }, .ok (.reference start)) ∧
        mid.Steady final ∧ final.memory = order.fill prepared.identity start mid.memory := by
  refine ⟨_, mid.withMemory (order.fill prepared.identity start mid.memory), ?_, rfl, mid.steady_withMemory _, rfl⟩
  simp only [deliver, fill, settle_eq order scratch, refer_of_aligned order aligned]
  cases tagged : order.tag? with
  | none =>
      cases order with
      | storage => rfl
      | _ => cases tagged
  | some tag =>
      simp only
      rw [Action.run_bind (show (Action.onMemory (·.setHeader start (.fresh tag))).run mid =
        .ok () (mid.withMemory (mid.memory.setHeader start (.fresh tag))) from rfl),
        Action.run_bind (run_write fits)]
      rfl

end Order

namespace Block

variable {place : Nat → Nat} {block : Block}

theorem pieces_placed
    (along : ∀ offset < block.size, place (block.start + offset) = place block.start + offset) :
    (block.moved place).pieces = block.pieces.map (Block.moved place) := by
  have shifted (count : Nat) : ∀ start, (∀ offset < blockUnit * count, place (start + offset) = place start + offset) →
      units (place start) count = (units start count).map (Block.moved place) := by
    induction count with
    | zero => exact fun _ _ => rfl
    | succ count ih =>
        intro start along
        rcases Nat.eq_zero_or_pos count with rfl | further
        · rfl
        have next : place (start + blockUnit) = place start + blockUnit :=
          along blockUnit (by simp only [blockUnit]; omega)
        have rest := ih (start + blockUnit) fun offset small => by
          have moved := along (blockUnit + offset) (by simp only [blockUnit] at *; omega)
          rw [next, Nat.add_assoc, Nat.add_assoc, moved]
        rw [next] at rest
        simp only [units, List.map_cons, rest, Block.moved]
  obtain ⟨start, size, kind⟩ := block
  cases kind with
  | bare =>
      refine shifted (size / blockUnit) start fun offset small => along offset ?_
      simp only [blockUnit] at small ⊢
      omega
  | free | object => rfl

end Block

namespace Order

variable {order : Order} {heap : Heap} {machine mid final : Machine} {tiling : Slab → List Block} {slab : Slab}
  {front back : List Block} {start free request : Nat} {base : List Value}

/-- What a slab is divided into once an order was met from a free block. -/
def laid (order : Order) (front : List Block) (start free request : Nat) (back : List Block) : List Block :=
  front ++ ((⟨start, request, order.kind⟩ : Block).pieces ++ (rest start free request ++ back))

section Sealed

variable (isSealed : heap.Sealed tiling machine) (inHeap : slab ∈ heap.slabs)
  (split : tiling slab = front ++ ⟨start, free, .free⟩ :: back)
  (rounded : Size.alignUp? (max order.size blockUnit) blockUnit = some request)
  (obtained : heap.Obtained tiling (Function.update tiling slab (carved front start free request back))
    machine.memory mid.memory ⟨start, request, .bare⟩)
  (zero : ∀ address, start ≤ address → address < start + request → mid.memory.read address = 0)
  (apt : order.Apt heap.shapes) (steady : machine.Steady final)
  (filled : final.memory = order.fill heap.identity start mid.memory)

include isSealed inHeap split rounded obtained zero apt steady filled

/-- An order is met by filling a block that was carved from a free one. -/
theorem supplied_of_carved (scratch : heap.scratch = base ++ order.held) :
    order.Supplied { heap with scratch := base } tiling machine heap tiling
      (Function.update tiling slab (order.laid front start free request back)) machine mid.memory start request
      final := by
  have given : heap.Given tiling _ machine.memory mid.memory order.size start request := ⟨rounded, obtained, zero⟩
  obtain ⟨aligned, positive, _, _, inside⟩ := given.bounds isSealed.upper
  have small : request < 0x4000000000000000 := by
    have limit : Memory.pageLimit * Memory.pageBytes ≤ 0x4000000000000000 := by decide
    simp only [blockUnit] at positive
    omega
  have before : used (tiling slab) = used front ++ used (rest start free request ++ back) := by
    rw [split, used_append, used_append, used_rest, List.nil_append]
    rfl
  have holds : ({ heap with scratch := base } : Heap).holding order.held = heap := by
    rw [holding, ← scratch]
  refine ⟨?_, rounded, zero, filled, ⟨aligned, positive, small⟩, ?_, steady⟩
  · rw [holds]
    exact .ready (.refl machine)
  · rw [filled, laid]
    cases tagged : order.tag? with
    | none =>
        rw [kind, fill, tagged]
        exact obtained
    | some tag =>
        have furnished : Furnished heap.shapes tag order.values start request mid.memory
            (order.fill heap.identity start mid.memory) :=
          furnished apt tagged (isSealed.confined tag) aligned small rounded zero
        rw [kind_eq_object tagged]
        refine obtained.furnish inHeap before furnished.outside ?_
        obtain ⟨shape, known, sized, _⟩ := furnished.shape
        have tag := congrArg Header.tag furnished.header
        exact ⟨shape, (congrArg heap.shapes.get? tag).trans known, isSealed.confined _ shape known _ _ _ sized⟩

end Sealed

/-- A heap that met an order keeps its objects, and forgets what it held meanwhile. -/
theorem Supplied.retains {taken : Slab → List Block} {before : Memory} (isSealed : heap.Sealed tiling machine)
    (orderly : machine.Orderly) (scratch : heap.scratch = base ++ order.held)
    (roots : ∀ root ∈ order.root, heap.Object tiling root.address)
    (held : ∀ value ∈ order.held, heap.RefersToObject tiling value) (apt : order.Apt heap.shapes)
    (supplied : order.Supplied { heap with scratch := base } tiling machine heap tiling taken machine before start
      request final) : heap.Retains { heap with scratch := base } tiling taken machine final := by
  have own : ({ heap with scratch := base } : Heap).Sealed tiling machine :=
    isSealed.reroot rfl rfl rfl isSealed.globals fun value listed =>
      isSealed.scratch value (scratch ▸ List.mem_append_left _ listed)
  exact ⟨supplied.seals own roots held apt, fun block member isObject =>
    supplied.obtained.kept block member (by simp [isObject]),
    fun number _ found _ => (Machine.frame?_congr supplied.steady.frames number).trans found,
    orderly.congr supplied.steady.frames⟩

end Order

theorem Heap.Evolves.copyHolds {heap copy after copyAfter : Heap} {machine image final copyFinal : Machine}
    {links : List (Nat × Nat)} {tiling copied divided copyDivided : Slab → List Block} {kept : List Value}
    (evolves : heap.Evolves copy after copyAfter links tiling divided copyDivided kept final copyFinal)
    (parallel : heap.Parallel copy links tiling copied machine image) : copyAfter.scratch = copy.scratch := by
  rw [evolves.scratch, evolves.holds, parallel.scratch]
  exact List.map_congr_left fun value listed =>
    evolves.prolongs.carry_eq (parallel.upheld.tiled.refersInside (parallel.isSealed.scratch value listed))

namespace Heap

variable {heap copy : Heap} {machine mid final image copyMid copyFinal : Machine} {links : List (Nat × Nat)}
  {tiling copied : Slab → List Block} {order : Order} {slab imageSlab : Slab} {front back : List Block}
  {start free request : Nat} {base copyBase : List Value}

namespace CarvedAlike

variable (carved : heap.CarvedAlike copy tiling copied request start machine mid image copyMid slab imageSlab front
  free back)

include carved

theorem place_add (tiled : heap.Tiled machine.memory tiling) {offset : Nat} (small : offset < free) :
    heap.place copy (start + offset) = heap.place copy start + offset := by
  have inHeap := (List.of_mem_zip carved.paired).1
  have member : (⟨start, free, .free⟩ : Block) ∈ tiling slab := carved.split ▸ by simp
  have bounds := (tiled.layout slab inHeap).bounds member
  simp only at bounds
  have along {address : Nat} (lower : start ≤ address) (upper : address < start + free) :
      heap.place copy address = slab.counterpart imageSlab address := by
    refine Resembles.place_eq tiled carved.paired (Slab.contains_iff.mpr ?_)
    omega
  rw [along (by omega) (by omega), along (Nat.le_refl start) (by omega), Slab.counterpart_add (by omega)]

theorem carries_laid (parallel : heap.Parallel copy links tiling copied machine image) :
    heap.Carries copy (Function.update tiling slab (order.laid front start free request back))
      (Function.update copied imageSlab (order.laid (front.map (Block.moved (heap.place copy)))
        (heap.place copy start) free request (back.map (Block.moved (heap.place copy))))) := by
  have tiled := parallel.upheld.tiled
  have copyTiled := parallel.copyUpheld.tiled
  have positive {slab : Slab} (large : minSlabSize ≤ slab.size) : 0 < slab.size :=
    Nat.lt_of_lt_of_le (by decide) large
  have moved : (order.laid front start free request back).map (Block.moved (heap.place copy)) =
      order.laid (front.map (Block.moved (heap.place copy))) (heap.place copy start) free request
        (back.map (Block.moved (heap.place copy))) := by
    have fits := carved.fits
    have pieces : (⟨heap.place copy start, request, order.kind⟩ : Block).pieces =
        (⟨start, request, order.kind⟩ : Block).pieces.map (Block.moved (heap.place copy)) :=
      @Block.pieces_placed (heap.place copy) ⟨start, request, order.kind⟩ fun offset small =>
        carved.place_add tiled (Nat.lt_of_lt_of_le small fits)
    rw [Order.laid, Order.laid, pieces, List.map_append, List.map_append, List.map_append,
      rest_moved fun offset small => carved.place_add tiled small]
  rw [← moved]
  exact parallel.carries.update tiled.apart copyTiled.apart
    (fun slab inHeap => positive (tiled.layout slab inHeap).placed.large)
    (fun slab inCopy => positive (copyTiled.layout slab inCopy).placed.large) carved.paired

end CarvedAlike

namespace Parallel

variable (parallel : heap.Parallel copy links tiling copied machine image) (apt : order.Apt heap.shapes)
  (roots : ∀ root ∈ order.root, heap.Object tiling root.address)
  (held : ∀ value ∈ order.held, heap.RefersToObject tiling value)

include parallel apt roots held

/-- Objects that were made for orders that stand for each other do so as well. -/
theorem echoed_supplied {taken copyTaken : Slab → List Block} {before copyBefore : Memory}
    (scratch : heap.scratch = base ++ order.held)
    (supplied : order.Supplied { heap with scratch := base } tiling machine heap tiling taken machine before start
      request final)
    (copySupplied : (order.map (heap.carry copy) (heap.carryContext copy)).Supplied
      { copy with scratch := copyBase } copied image copy copied copyTaken image copyBefore
      (heap.place copy start) request copyFinal) (isObject : order.kind = .object) :
    (⟨start, request, order.kind⟩ : Block).Echoed heap copy links final copyFinal := by
  have tiled := parallel.upheld.tiled
  obtain ⟨tag, tagged⟩ := Order.tag_of_kind isObject
  have confined := fun tag (_ : tag ∈ order.tag?) => parallel.isSealed.confined tag
  have furnished := supplied.furnished confined apt tagged
  have copyApt : (order.map (heap.carry copy) (heap.carryContext copy)).Apt copy.shapes := by
    rw [parallel.shapes]
    exact apt.map
  have copyFurnished := copySupplied.furnished (fun tag _ => parallel.copySealed.confined tag) copyApt
    ((Order.tag?_map order).trans tagged)
  have isTag : final.memory.tag start = tag := congrArg Header.tag furnished.header
  have copyTag : copyFinal.memory.tag (heap.place copy start) = tag := congrArg Header.tag copyFurnished.header
  have member : (⟨start, request, order.kind⟩ : Block) ∈ heap.blocks taken :=
    (supplied.obtained.mem_iff (by simp [isObject])).mpr (.inr (by simp [Block.pieces, isObject]))
  have fits : order.size ≤ request := by
    obtain ⟨atLeast, _⟩ := Size.alignUp?_eq_some
      (show Size.alignUp? (max order.size blockUnit) (1 <<< 4) = some request from supplied.rounded)
    exact Nat.le_trans (Nat.le_max_left _ _) atLeast
  have aligned := supplied.bounds.1
  have placed := copySupplied.bounds.1
  have filled : final.memory = order.fill heap.identity start before := supplied.filled
  have copyFilled : copyFinal.memory = (order.map (heap.carry copy) (heap.carryContext copy)).fill copy.identity
      (heap.place copy start) copyBefore := copySupplied.filled
  -- The parent of a new context is a handle, which is carried as any value is.
  have parents (parent : Context) (isParent : order = .context (some parent)) :
      (heap.carryContext copy parent).toValue = heap.carry copy parent.toValue := by
    subst isParent
    exact (parallel.carry_toValue (roots parent rfl)).symm
  refine ⟨⟨copyTag.trans isTag.symm, fun shape known offset slot => ?_,
    fun shape known offset behind inside beyond clear => ?_⟩, fun shape known offset slot => ?_, fun isContext => ?_⟩
  · have describes := (supplied.obtained.tiled.describes member (by simp [isObject]) known).2
    simp only [isTag] at known
    rw [filled] at slot describes ⊢
    rw [copyFilled]
    exact Order.value_map aligned placed apt tagged known supplied.size_lt (moveValue_of_none rfl)
      (moveValue_of_none rfl) (moveValue_of_none rfl) parents describes fits supplied.zero copySupplied.zero slot
  · simp only [isTag] at known beyond
    rw [filled] at clear ⊢
    rw [copyFilled]
    refine Order.agrees_fill aligned placed order fits supplied.zero copySupplied.zero offset inside fun loose => ?_
    obtain ⟨slot, isSlot, covers⟩ :=
      Order.covered_of_loose aligned apt tagged known supplied.size_lt loose behind beyond
    exact clear slot isSlot covers
  · obtain ⟨found, foundKnown, _, values⟩ := furnished.shape
    simp only [isTag] at known
    obtain rfl := Option.some.inj (foundKnown.symm.trans known)
    intro address refers
    rcases Order.root_of_mem_values { heap with scratch := base } (values offset slot) with isRoot | unknown
    · have holds : ({ heap with scratch := base } : Heap).holding order.held = heap := by
        rw [holding, ← scratch]
      rw [Order.roots, holds] at isRoot
      exact tiled.contains_of_refers (parallel.isSealed.rooted roots _ isRoot) address refers
    · rw [unknown] at refers
      cases refers
  · have isContext : tag = Tag.context := isTag.symm.trans isContext
    refine ⟨[], List.nil_subset _, ?_, ?_⟩
    · exact congrArg UInt64.toNat (furnished.saves isContext)
    · exact congrArg UInt64.toNat (copyFurnished.saves isContext)

/-- Blocks that stand for each other were filled for orders that do. -/
theorem supply
    (carved : heap.CarvedAlike copy tiling copied request start machine mid image copyMid slab imageSlab front free back)
    (rounded : Size.alignUp? (max order.size blockUnit) blockUnit = some request)
    (steady : mid.Steady final) (filled : final.memory = order.fill heap.identity start mid.memory)
    (copySteady : copyMid.Steady copyFinal)
    (copyFilled : copyFinal.memory = (order.map (heap.carry copy) (heap.carryContext copy)).fill copy.identity
      (heap.place copy start) copyMid.memory)
    (scratch : heap.scratch = base ++ order.held)
    (copyScratch : copy.scratch = copyBase ++ order.held.map (heap.carry copy)) :
    ∃ taken copyTaken, { heap with scratch := base }.Parallel { copy with scratch := copyBase } links taken copyTaken
      final copyFinal := by
  obtain ⟨inHeap, inCopy⟩ := List.of_mem_zip carved.paired
  have copySplit : copied imageSlab = front.map (Block.moved (heap.place copy)) ++
      ⟨heap.place copy start, free, .free⟩ :: back.map (Block.moved (heap.place copy)) := by
    rw [parallel.carries slab imageSlab carved.paired, carved.split, List.map_append, List.map_cons]
    rfl
  have copyApt : (order.map (heap.carry copy) (heap.carryContext copy)).Apt copy.shapes := by
    rw [parallel.shapes]
    exact apt.map
  have copyRounded : Size.alignUp? (max (order.map (heap.carry copy) (heap.carryContext copy)).size blockUnit)
      blockUnit = some request := by
    rwa [Order.size_map]
  have copyRoots : ∀ root ∈ (order.map (heap.carry copy) (heap.carryContext copy)).root,
      copy.Object copied root.address := by
    intro root listed
    rw [Order.root_map, Option.mem_map] at listed
    obtain ⟨original, isRoot, rfl⟩ := listed
    exact parallel.mirrors.object (roots original isRoot)
  have copyHeld : ∀ value ∈ (order.map (heap.carry copy) (heap.carryContext copy)).held,
      copy.RefersToObject copied value := by
    intro value listed
    rw [Order.held_map, List.mem_map] at listed
    obtain ⟨original, isHeld, rfl⟩ := listed
    exact parallel.refers (held original isHeld)
  rw [← @Order.held_map (heap.carry copy) (heap.carryContext copy) order] at copyScratch
  have supplied := Order.supplied_of_carved parallel.isSealed inHeap carved.split rounded carved.obtained carved.zero
    apt (carved.steady.trans steady) filled scratch
  have copySupplied := Order.supplied_of_carved parallel.copySealed inCopy copySplit copyRounded carved.copyObtained
    carved.copyZero copyApt (carved.copySteady.trans copySteady) copyFilled copyScratch
  have retains := supplied.retains parallel.isSealed parallel.orderly scratch roots held apt
  have copyRetains := copySupplied.retains parallel.copySealed parallel.copyOrderly copyScratch copyRoots copyHeld
    copyApt
  refine ⟨_, _, parallel.extend retains copyRetains (.of_slabs rfl rfl) { parallel.toSiblings with } ?_ ?_
    (fun _ _ => id) fun block member isObject => ?_⟩
  · rw [show (order.map (heap.carry copy) (heap.carryContext copy)).laid = order.laid by
      unfold Order.laid
      simp only [Order.kind_map]]
    exact carved.carries_laid parallel
  · have same := parallel.scratch
    rw [scratch, copyScratch, Order.held_map, List.map_append] at same
    exact List.append_cancel_right same
  · rcases (supplied.obtained.mem_iff (by simp [isObject])).mp member with before | isNew
    · exact .inl before
    · obtain ⟨rfl, kind⟩ := supplied.obtained.eq_of_mem_pieces isNew isObject
      obtain ⟨imaged, inside, chain⟩ :=
        parallel.echoed_supplied apt roots held scratch supplied copySupplied kind
      exact .inr ⟨imaged, inside, chain⟩

omit apt roots in
theorem holding_held : (heap.holding order.held).Parallel (copy.holding (order.held.map (heap.carry copy))) links
    tiling copied machine image := by
  refine parallel.reroot rfl rfl rfl rfl { parallel.toSiblings with } ?_ ?_
  · simp only [holding, parallel.scratch, List.map_append]
  · exact List.forall_mem_append.mpr ⟨parallel.isSealed.scratch, held⟩

section Delivery

variable {after copyAfter : Heap} {divided copyDivided : Slab → List Block}
  (evolves : (heap.holding order.held).Evolves (copy.holding (order.held.map (heap.carry copy))) after copyAfter
    links tiling divided copyDivided ((heap.holding order.held).roots order.root) mid copyMid)

include evolves

omit parallel apt roots held in
theorem prolongs_after : heap.Prolongs copy after copyAfter :=
  .trans (.of_slabs rfl rfl : heap.Prolongs copy (heap.holding order.held)
    (copy.holding (order.held.map (heap.carry copy)))) evolves.prolongs

omit apt roots held in
/-- What was held before the order corresponds in the heaps that there are now. -/
theorem scratch_after : copy.scratch = heap.scratch.map (after.carry copyAfter) := by
  rw [parallel.scratch]
  exact List.map_congr_left fun value listed => ((prolongs_after evolves).carry_eq
    (parallel.upheld.tiled.refersInside (parallel.isSealed.scratch value listed))).symm

omit apt in
/-- The orders stand for each other in the heaps that there are now. -/
theorem map_after : order.map (heap.carry copy) (heap.carryContext copy) =
    order.map (after.carry copyAfter) (after.carryContext copyAfter) := by
  have tiled := parallel.upheld.tiled
  have prolongs := prolongs_after evolves
  refine Order.map_congr (fun value listed => ?_) fun root listed => ?_
  · exact (prolongs.carry_eq (tiled.refersInside (held value listed))).symm
  · obtain ⟨block, member, _, starts⟩ := roots root listed
    exact (prolongs.carryContext_eq (starts ▸ tiled.contains member)).symm

omit apt held in
theorem roots_after : ∀ root ∈ order.root, after.Object divided root.address := by
  have tiled := parallel.upheld.tiled
  intro root listed
  refine evolves.stays root.toValue ?_ (tiled.refersToObject (roots root listed)) _
    (tiled.address?_toValue (roots root listed))
  exact List.mem_append_right _ (by simpa using ⟨root, listed, rfl⟩)

omit parallel apt roots in
theorem held_after : ∀ value ∈ order.held, after.RefersToObject divided value := by
  intro value listed
  refine evolves.stays value ?_ (held value listed)
  exact List.mem_append_left _ (List.mem_append_left _ (List.mem_append_right _ listed))

omit apt roots in
/-- Parallel heaps that refuse go back to what they held. -/
theorem deliver_refused (refusal : HeapError) :
    (order.deliver heap (after.refused, .error refusal)).Abreast
      ((order.map (heap.carry copy) (heap.carryContext copy)).deliver copy (copyAfter.refused, .error refusal))
      mid copyMid
      (fun answer final copyAnswer copyFinal => ∃ taken copyTaken,
        answer.1.Parallel copyAnswer.1 links taken copyTaken final copyFinal ∧
          heap.Prolongs copy answer.1 copyAnswer.1 ∧ copyAnswer.2 = answer.2.map (answer.1.carry copyAnswer.1))
      (heap.Exhausted tiling) := by
  have copyHolds : copyAfter.scratch = copy.scratch ++ order.held.map (heap.carry copy) :=
    evolves.copyHolds (parallel.holding_held held)
  have settled : order.settle heap after.refused = { after.refused with scratch := heap.scratch } :=
    order.settle_eq evolves.holds
  have copySettled : (order.map (heap.carry copy) (heap.carryContext copy)).settle copy copyAfter.refused =
      { copyAfter.refused with scratch := copy.scratch } :=
    Order.settle_eq _ (order.held_map ▸ copyHolds)
  simp only [Order.deliver, settled, copySettled]
  refine .pure ⟨divided, copyDivided, ?_, (prolongs_after evolves).trans (.of_slabs rfl rfl), rfl⟩
  refine evolves.reroot rfl rfl rfl rfl { evolves.toSiblings.refused with } (parallel.scratch_after evolves)
    fun value listed => ?_
  exact evolves.isSealed.scratch value (evolves.holds ▸ List.mem_append_left _ listed)

theorem deliver_given
    (rounded : Size.alignUp? (max order.size blockUnit) blockUnit = some request)
    (carved : after.CarvedAlike copyAfter divided copyDivided request start mid final copyMid copyFinal slab
      imageSlab front free back) :
    (order.deliver heap (after, .ok start)).Abreast
      ((order.map (heap.carry copy) (heap.carryContext copy)).deliver copy (copyAfter, .ok (after.place copyAfter start)))
      final copyFinal
      (fun answer final copyAnswer copyFinal => ∃ taken copyTaken,
        answer.1.Parallel copyAnswer.1 links taken copyTaken final copyFinal ∧
          heap.Prolongs copy answer.1 copyAnswer.1 ∧ copyAnswer.2 = answer.2.map (answer.1.carry copyAnswer.1))
      (heap.Exhausted tiling) := by
  have copyHolds : copyAfter.scratch = copy.scratch ++ order.held.map (heap.carry copy) :=
    evolves.copyHolds (parallel.holding_held held)
  have moved := parallel.map_after roots held evolves
  have copyHeld : order.held.map (heap.carry copy) = order.held.map (after.carry copyAfter) := by
    rw [← @Order.held_map _ (heap.carryContext copy), moved, Order.held_map]
  rw [copyHeld] at copyHolds
  have given : after.Given divided _ mid.memory final.memory order.size start request :=
    ⟨rounded, carved.obtained, carved.zero⟩
  have copyGiven : copyAfter.Given copyDivided _ copyMid.memory copyFinal.memory order.size
      (after.place copyAfter start) request := ⟨rounded, carved.copyObtained, carved.copyZero⟩
  obtain ⟨aligned, positive, atLeast, _, inside⟩ := given.bounds evolves.isSealed.upper
  obtain ⟨placed, _⟩ := copyGiven.bounds evolves.copySealed.upper
  have limit : Memory.pageLimit * Memory.pageBytes ≤ 0x4000000000000000 := by decide
  simp only [blockUnit] at positive
  have small : order.size < 0x4000000000000000 := by omega
  rw [moved]
  refine .of_ensures (Order.ensures_deliver aligned small evolves.holds)
    (Order.ensures_deliver placed (by rwa [Order.size_map]) (by rw [copyHolds, Order.held_map])) ?_
  rintro _ later _ copyLater ⟨rfl, steady, filled⟩ ⟨rfl, copySteady, copyFilled⟩
  obtain ⟨taken, copyTaken, supplied⟩ := evolves.supply (evolves.known ▸ apt) (parallel.roots_after roots evolves)
    (held_after held evolves) carved rounded steady filled copySteady copyFilled evolves.holds copyHolds
  refine ⟨taken, copyTaken, supplied, (prolongs_after evolves).trans (.of_slabs rfl rfl), ?_⟩
  have contained : after.contains start = true := by
    obtain ⟨slab, inHeap, lower, upper, _⟩ := carved.obtained.inside
    refine contains_iff.mpr ⟨slab, inHeap, Slab.contains_iff.mpr ?_⟩
    simp only [Slab.objects, Block.stop, blockUnit] at lower upper atLeast
    omega
  have bounded : start < Size.limit := by
    have limit : Memory.pageLimit * Memory.pageBytes ≤ Size.limit := by decide
    simp only [blockUnit] at atLeast
    omega
  exact congrArg Except.ok (Resembles.carry_reference contained (by omega) bounded).symm

end Delivery

/-- Parallel heaps meet orders that stand for each other alike. -/
theorem perform (rooms : ∀ request, Size.alignUp? (max order.size blockUnit) blockUnit = some request →
      heap.RoomsAlike request machine image) :
    (order.perform heap).Abreast ((order.map (heap.carry copy) (heap.carryContext copy)).perform copy) machine image
      (fun answer final copyAnswer copyFinal => ∃ taken copyTaken,
        answer.1.Parallel copyAnswer.1 links taken copyTaken final copyFinal ∧
          heap.Prolongs copy answer.1 copyAnswer.1 ∧ copyAnswer.2 = answer.2.map (answer.1.carry copyAnswer.1))
      (heap.Exhausted tiling) := by
  have copyApt : (order.map (heap.carry copy) (heap.carryContext copy)).Apt copy.shapes := by
    rw [parallel.shapes]
    exact apt.map
  rw [Order.perform_eq apt.registered, Order.perform_eq copyApt.registered]
  by_cases large : order.Oversized
  · rw [if_pos large, if_pos (order.oversized_map.mpr large)]
    refine parallel.countRefusal (fun spent => .inl (.inr spent)) (.pure ⟨tiling, copied, ?_, .of_slabs rfl rfl, rfl⟩)
    exact parallel.reroot rfl rfl rfl rfl parallel.toSiblings.refused parallel.scratch parallel.isSealed.scratch
  rw [if_neg large, if_neg fun exceeds => large (order.oversized_map.mp exceeds), Order.root_map, Order.held_map,
    Order.size_map]
  refine ((parallel.holding_held held).allocateBlock roots rooms).bind ?_
  rintro _ final _ copyFinal answered
  cases answered with
  | refused evolves refusal => exact parallel.deliver_refused held evolves refusal
  | given evolves rounded carved => exact parallel.deliver_given apt roots held evolves rounded carved

end Parallel

end Heap

end SlabHeap
