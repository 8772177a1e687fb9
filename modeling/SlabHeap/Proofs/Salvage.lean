import SlabHeap.Proofs.Damage

namespace SlabHeap

/-! Sweeps through damaged storage.

A sweep frees what unmarked storage claims to take, be it a part of other objects or of nothing at all.
`Slab.Sweeps` is what stays true all the same: nothing ahead of the cursor was touched, and the free list
goes on in address order. `Slab.Underway.settles_sweepFrom` says that the sweep ends, has reported what it
came by and counted no byte twice, and that nothing can go wrong but a sum.
-/

open FreeList

namespace Slab

/-- A sweep through damaged storage stands at `cursor`. Ahead of it and outside of the slab memory is as it
was in `origin`. The free list goes on behind `before` in address order, over the `nodes`; those ahead were
free when the sweep began. -/
structure Sweeps (slab : Slab) (origin : Memory) (listed nodes : List (Nat × Nat)) (memory : Memory)
    (cursor before : Nat) : Prop where
  whole : cursor % 16 = 0
  lower : slab.objects ≤ cursor
  link : before % 16 = 0 ∧ slab.start ≤ before ∧ before + 16 ≤ cursor
  room : before ≠ slab.start → before + FreeList.size memory before ≤ max cursor slab.stop
  path : Path memory (next memory before) nodes 0
  ordered : (before :: nodes.map (·.1)).Pairwise (· < ·)
  inside : ∀ node ∈ nodes,
    node.1 % 16 = 0 ∧ node.1 + 16 ≤ slab.stop ∧ node.1 + node.2 ≤ max cursor slab.stop
  free : onwards nodes cursor = onwards listed cursor
  same : ∀ address, address < slab.start ∨ cursor ≤ address ∨ slab.stop ≤ address →
    memory.read address = origin.read address

section Sweeping

variable {slab : Slab} {shapes : ShapeTable} {scrutiny : Scrutiny} {stats : SweepStats}
  {origin memory after : Memory} {listed nodes fresh passed rest : List (Nat × Nat)} {sure : Prop}
  {cursor before free onward size bound most already : Nat} {machine : Machine}

theorem Listed.sweeps (lists : slab.Listed origin listed) :
    slab.Sweeps origin listed listed origin slab.objects slab.start where
  whole := by
    have := lists.startAligned
    simp only [Slab.objects, blockUnit] at *
    omega
  lower := Nat.le_refl _
  link := ⟨lists.startAligned, Nat.le_refl _, Nat.le_refl _⟩
  room other := absurd rfl other
  path := chain_iff_path.mp lists.chain
  ordered := lists.increasing
  inside node member := by
    have := lists.bounds member
    omega
  free := rfl
  same _ _ := rfl

namespace Sweeps

variable (sweeps : slab.Sweeps origin listed nodes memory cursor before)

include sweeps

/-- A step over storage that is left as it is. -/
theorem advance (further : cursor ≤ onward) (whole : onward % 16 = 0) :
    slab.Sweeps origin listed nodes memory onward before where
  whole := whole
  lower := Nat.le_trans sweeps.lower further
  link := ⟨sweeps.link.1, sweeps.link.2.1, Nat.le_trans sweeps.link.2.2 further⟩
  room other := by
    have := sweeps.room other
    omega
  path := sweeps.path
  ordered := sweeps.ordered
  inside node member := by
    have := sweeps.inside node member
    omega
  free := by rw [← onwards_onwards further, sweeps.free, onwards_onwards further]
  same address outside := sweeps.same address (by omega)

/-- The sweep follows the free list while it extends it. -/
theorem follow (split : nodes = passed ++ rest) (below : ∀ entry ∈ passed, entry.1 < cursor) :
    slab.Sweeps origin listed rest memory cursor (lastOr before passed) := by
  subst split
  obtain ⟨mid, reached, goesOn⟩ := path_append.mp sweeps.path
  -- The walk stands at the last node that it has passed, or where it stood.
  have last := lastOr_mem before passed
  refine ⟨sweeps.whole, sweeps.lower, ?_, ?_, ?_, ?_, ?_, ?_, sweeps.same⟩
  · rcases last with same | ⟨entry, member, same⟩
    · rw [same]
      exact sweeps.link
    · have inside := sweeps.inside entry (List.mem_append_left _ member)
      have behind := below entry member
      have beyond : before < entry.1 :=
        (List.pairwise_cons.mp sweeps.ordered).1 _ (List.mem_map_of_mem (List.mem_append_left _ member))
      have := sweeps.whole
      have := sweeps.link
      omega
  · intro other
    rcases last with same | ⟨entry, member, same⟩
    · rw [same] at other ⊢
      exact sweeps.room other
    · have inside := sweeps.inside entry (List.mem_append_left _ member)
      have sized := (sweeps.path.present (List.mem_append_left _ member)).2
      rw [← same, sized]
      exact inside.2.2
  · rw [reached.next_last]
    exact goesOn
  · have ordered := sweeps.ordered
    rw [List.map_append, ← List.cons_append, List.pairwise_append] at ordered
    refine List.pairwise_cons.mpr ⟨fun address inRest => ordered.2.2 _ ?_ address inRest, ordered.2.1⟩
    rcases last with same | ⟨entry, member, same⟩
    · rw [same]
      exact List.mem_cons_self
    · rw [← same]
      exact List.mem_cons_of_mem _ (List.mem_map_of_mem member)
  · exact fun node member => sweeps.inside node (List.mem_append_right _ member)
  · rw [← sweeps.free, onwards_append, onwards_eq_nil below, List.nil_append]

/-- What is not at the cursor lies a unit behind it at least. -/
theorem clear (above : ∀ entry ∈ nodes, cursor ≤ entry.1) (elsewhere : firstOr 0 nodes ≠ cursor) :
    ∀ entry ∈ nodes, cursor + 16 ≤ entry.1 := by
  have later : ∀ entry ∈ nodes, cursor < entry.1 := by
    cases nodes with
    | nil => simp
    | cons head others =>
        have first : cursor < head.1 :=
          Nat.lt_of_le_of_ne (above head List.mem_cons_self) (Ne.symm elsewhere)
        refine List.forall_mem_cons.mpr ⟨first, fun entry member => ?_⟩
        have ordered := (List.pairwise_cons.mp (List.pairwise_cons.mp sweeps.ordered).2).1
        exact first.trans (ordered _ (List.mem_map_of_mem member))
  intro entry member
  have := (sweeps.inside entry member).1
  have := later entry member
  have := sweeps.whole
  omega

/-- A step that writes into the unit at the cursor and into the node in front of it alone: some blocks of
the list are gone from ahead, and the unit may have become a node. -/
theorem step (clear : ∀ entry ∈ nodes, cursor + 16 ≤ entry.1) (inside : cursor < slab.stop)
    (slabAligned : slab.stop % 16 = 0) (split : nodes = passed ++ rest)
    (gone : ∀ entry ∈ passed, entry.1 < onward) (further : cursor + 16 ≤ onward) (whole : onward % 16 = 0)
    (kept : ∀ address, ¬ (before ≤ address ∧ address < before + 16) →
      ¬ (cursor ≤ address ∧ address < cursor + 16) → after.read address = memory.read address)
    (room : before ≠ slab.start → before + FreeList.size after before ≤ max onward slab.stop)
    (linked : next after before = firstOr (firstOr 0 rest) fresh)
    (added : fresh = [] ∨ ∃ run, fresh = [(cursor, run)] ∧ cursor + run ≤ max onward slab.stop ∧
      FreeList.size after cursor = run ∧ next after cursor = firstOr 0 rest) :
    slab.Sweeps origin listed (fresh ++ rest) after onward before := by
  subst split
  have cursorWhole := sweeps.whole
  have lower := sweeps.lower
  obtain ⟨beforeWhole, fromStart, behind⟩ := sweeps.link
  have restKept : Path after (firstOr 0 rest) rest 0 := by
    obtain ⟨mid, _, goesOn⟩ := path_append.mp sweeps.path
    obtain rfl := goesOn.start_eq
    refine goesOn.congr fun entry member => ?_
    have := clear entry (List.mem_append_right _ member)
    exact ⟨kept _ (by omega) (by omega), kept _ (by omega) (by omega)⟩
  have restOrdered : (rest.map (·.1)).Pairwise (· < ·) :=
    (List.pairwise_cons.mp sweeps.ordered).2.sublist ((List.sublist_append_right passed rest).map _)
  have beyond : ∀ address ∈ rest.map (·.1), cursor < address := by
    intro address inRest
    obtain ⟨entry, member, rfl⟩ := List.mem_map.mp inRest
    have := clear entry (List.mem_append_right _ member)
    omega
  have restInside : ∀ node ∈ rest,
      node.1 % 16 = 0 ∧ node.1 + 16 ≤ slab.stop ∧ node.1 + node.2 ≤ max onward slab.stop := by
    intro node member
    have := sweeps.inside node (List.mem_append_right _ member)
    omega
  -- The nodes that are left are those of the list that lie ahead.
  have restFree : onwards rest onward = onwards listed onward := by
    have further : cursor ≤ onward := by omega
    have same := congrArg (onwards · onward) sweeps.free
    rw [onwards_onwards further, onwards_onwards further, onwards_append, onwards_eq_nil gone] at same
    exact same
  have same : ∀ address, address < slab.start ∨ onward ≤ address ∨ slab.stop ≤ address →
      after.read address = origin.read address := by
    intro address outside
    rw [kept address (by omega) (by omega)]
    exact sweeps.same address (by omega)
  refine ⟨whole, by omega, ⟨beforeWhole, fromStart, by omega⟩, room, ?_, ?_, ?_, ?_, same⟩
  all_goals rcases added with rfl | ⟨run, rfl, ends, sized, goesOn⟩
  · rw [linked]
    exact restKept
  · have present : cursor ≠ 0 := by omega
    rw [linked]
    exact ⟨rfl, present, sized, by rw [firstOr, goesOn]; exact restKept⟩
  · exact List.pairwise_cons.mpr ⟨fun address inRest => by have := beyond address inRest; omega, restOrdered⟩
  · refine List.pairwise_cons.mpr ⟨List.forall_mem_cons.mpr ⟨by dsimp only; omega, fun address inRest => ?_⟩,
      List.pairwise_cons.mpr ⟨beyond, restOrdered⟩⟩
    have := beyond address inRest
    omega
  · exact restInside
  · exact List.forall_mem_cons.mpr ⟨⟨cursorWhole, by dsimp only; omega, ends⟩, restInside⟩
  · exact restFree
  · rw [onwards_append, onwards_eq_nil (List.forall_mem_singleton.mpr (by dsimp only; omega)), restFree]
    rfl

theorem unmark (clear : ∀ entry ∈ nodes, cursor + 16 ≤ entry.1) (inside : cursor < slab.stop)
    (slabAligned : slab.stop % 16 = 0) (large : 16 ≤ size) (units : size % 16 = 0) (header : Header) :
    slab.Sweeps origin listed nodes (memory.setHeader cursor header) (cursor + size) before := by
  have whole := sweeps.whole
  have room := sweeps.room
  obtain ⟨beforeWhole, _, behind⟩ := sweeps.link
  have kept (address : Nat) (outside : ¬ (cursor ≤ address ∧ address < cursor + 16)) :
      (memory.setHeader cursor header).read address = memory.read address :=
    Memory.read_setHeader (by omega) (by omega)
  have sized : FreeList.size (memory.setHeader cursor header) before = FreeList.size memory before :=
    congrArg UInt64.toNat (kept before (by omega))
  have linked : next (memory.setHeader cursor header) before = firstOr 0 nodes :=
    (congrArg UInt64.toNat (kept (before + 8) (by omega))).trans sweeps.path.start_eq
  have stepped : slab.Sweeps origin listed ([] ++ nodes) (memory.setHeader cursor header) (cursor + size)
      before := by
    refine sweeps.step clear inside slabAligned (List.nil_append nodes).symm (by simp) (by omega) (by omega)
      (fun address _ outside => kept address outside) (fun other => ?_) linked (.inl rfl)
    have := room other
    omega
  exact stepped

theorem mem_listed {entry : Nat × Nat} (member : entry ∈ nodes) (ahead : cursor ≤ entry.1) :
    entry ∈ listed := by
  have inAhead : entry ∈ onwards nodes cursor := List.mem_filter.mpr ⟨member, decide_eq_true ahead⟩
  rw [sweeps.free] at inAhead
  exact (List.mem_filter.mp inAhead).1

/-- The free block behind storage that is freed, if there is one right behind it. -/
theorem exists_ahead (lists : slab.Listed origin listed) (clear : ∀ entry ∈ nodes, cursor + 16 ≤ entry.1)
    (inRange : cursor + size < Size.limit) : ∃ reach passed rest, nodes = passed ++ rest ∧
      Ahead memory (cursor + size) (firstOr 0 nodes) reach (firstOr 0 rest) ∧
      (reach = 0 ∧ passed = [] ∨
        (cursor + size, reach) ∈ listed ∧ passed = [(cursor + size, reach)]) := by
  have apart (isAddress : firstOr 0 nodes < Size.limit)
      (elsewhere : ¬ (firstOr 0 nodes ≠ 0 ∧ cursor + size = firstOr 0 nodes)) :
      Ahead memory (cursor + size) (firstOr 0 nodes) 0 (firstOr 0 nodes) :=
    ⟨fun joined => absurd joined elsewhere, fun _ => ⟨rfl, rfl⟩, inRange, isAddress⟩
  cases nodes with
  | nil => exact ⟨0, [], [], rfl, apart (by decide) (fun joined => joined.1 rfl), .inl ⟨rfl, rfl⟩⟩
  | cons entry rest =>
      have later := clear entry List.mem_cons_self
      have member := sweeps.mem_listed List.mem_cons_self (show cursor ≤ entry.1 by omega)
      have bounds := lists.bounds member
      obtain ⟨begins, present, sized, goesOn⟩ := sweeps.path
      rw [begins] at sized goesOn
      by_cases touches : cursor + size = entry.1
      · refine ⟨entry.2, [entry], rest, rfl, ?_, .inr ⟨touches ▸ member, by rw [touches]⟩⟩
        exact ⟨fun _ => ⟨sized.symm, goesOn.start_eq.symm⟩,
          fun elsewhere => absurd ⟨by simp only [firstOr]; omega, touches⟩ elsewhere, by omega,
          goesOn.start_eq ▸ UInt64.toNat_lt _⟩
      · refine ⟨0, [], entry :: rest, rfl, apart (by simp only [firstOr]; omega) ?_, .inl ⟨rfl, rfl⟩⟩
        exact fun joined => touches joined.2

end Sweeps

/-- No size that leads past all addresses can be freed. -/
theorem settles_release_overflow {post : Nat × Nat → Machine → Prop} (unsure : ¬ sure)
    (overflows : Size.limit ≤ cursor + size) :
    Action.Settles (fun _ => slab.release cursor size before free) machine sure post := by
  have never {β : Type} {next : Nat → Nat → Action β} {post : β → Machine → Prop} {machine : Machine} :
      Action.Settles (fun extra => (liftM (Size.add cursor size) : Action Nat) >>= next extra) machine
        sure post :=
    Action.settles_add (fun isSure => absurd isSure unsure) fun inRange => absurd inRange (by omega)
  unfold release
  rw [Action.settles_memory]
  have alone (following : Nat) : Action.Settles (fun _ => do
      Action.onMemory (writeNode · cursor size following)
      Action.onMemory (setNext · before cursor)
      let stop ← (Size.add cursor size : Action Nat)
      return (stop, size)) machine sure post := by
    rw [Action.settles_onMemory, Action.settles_onMemory]
    exact never
  by_cases none : free = 0
  · simp only [none, if_true, pure_bind]
    by_cases first : before = slab.start
    · simp only [first, if_true]
      exact first ▸ alone 0
    · simp only [first, if_false]
      refine Action.settles_add (fun isSure => absurd isSure unsure) fun _ => ?_
      by_cases touches : before + FreeList.size machine.memory before = cursor
      · simp only [touches, decide_true, if_true]
        refine Action.settles_add (fun isSure => absurd isSure unsure) fun _ => ?_
        refine Action.settles_add (fun isSure => absurd isSure unsure) fun inRange => ?_
        exact absurd inRange (by omega)
      · simp only [touches, decide_false]
        exact alone 0
  · simp only [none, if_false]
    exact never

/-- Freeing what damaged storage claims leads on, or fails for a sum. -/
theorem Sweeps.settles_release (sweeps : slab.Sweeps origin listed nodes machine.memory cursor before)
    (lists : slab.Listed origin listed) (clear : ∀ entry ∈ nodes, cursor + 16 ≤ entry.1)
    (inside : cursor < slab.stop) (slabAligned : slab.stop % 16 = 0) (large : 16 ≤ size)
    (units : size % 16 = 0) (fits : sure → cursor + size < Size.limit) :
    Action.Settles (fun _ => slab.release cursor size before (firstOr 0 nodes)) machine sure
      fun answer final => machine.Steady final ∧ ∃ reach, answer.1 = cursor + size + reach ∧
        (reach = 0 ∨ (cursor + size, reach) ∈ listed) ∧
        ∃ others, slab.Sweeps origin listed others final.memory answer.1 before := by
  have whole := sweeps.whole
  have room := sweeps.room
  obtain ⟨beforeWhole, fromStart, behind⟩ := sweeps.link
  by_cases inRange : cursor + size < Size.limit
  · obtain ⟨reach, passed, rest, split, ahead, joins⟩ := sweeps.exists_ahead lists clear inRange
    have bounds : reach % 16 = 0 ∧ cursor + size + reach ≤ max (cursor + size) slab.stop ∧
        ∀ entry ∈ passed, entry.1 < cursor + size + reach := by
      rcases joins with ⟨rfl, rfl⟩ | ⟨member, rfl⟩
      · exact ⟨rfl, by omega, by simp⟩
      · have := lists.bounds member
        exact ⟨by omega, by omega, List.forall_mem_singleton.mpr (by dsimp only; omega)⟩
    obtain ⟨reachUnits, ends, gone⟩ := bounds
    have joins := joins.imp And.left And.left
    -- A run that follows the node in front joins it; any other run becomes a node.
    by_cases touches : before ≠ slab.start ∧ before + FreeList.size machine.memory before = cursor
    · refine (ensures_release_joining touches.1 beforeWhole touches.2 sweeps.path.start_eq
        ahead).settles.weaken ?_
      rintro _ final ⟨rfl, steady, sized, linked, kept⟩
      have renewed : slab.Sweeps origin listed ([] ++ rest) final.memory (cursor + size + reach) before :=
        sweeps.step clear inside slabAligned split gone (by omega) (by omega)
          (fun address outside _ => kept address outside) (fun _ => by omega) linked (.inl rfl)
      exact ⟨steady, reach, rfl, joins, rest, renewed⟩
    · refine (ensures_release_apart (by omega) beforeWhole whole (fun other => ?_) behind
        ahead).settles.weaken ?_
      · have := room other
        have := lists.bounded
        omega
      rintro _ final ⟨rfl, steady, sized, linked, reached, kept⟩
      have beforeKept : FreeList.size final.memory before = FreeList.size machine.memory before :=
        congrArg UInt64.toNat (kept before (by omega) (by omega))
      have renewed : slab.Sweeps origin listed ([(cursor, size + reach)] ++ rest) final.memory
          (cursor + size + reach) before := by
        refine sweeps.step clear inside slabAligned split gone (by omega) (by omega)
          (fun address outside elsewhere => kept address elsewhere (by omega)) (fun other => ?_) reached
          (.inr ⟨_, rfl, by omega, sized, linked⟩)
        have := room other
        omega
      exact ⟨steady, reach, rfl, joins, _, renewed⟩
  · exact settles_release_overflow (mt fits inRange) (by omega)

/-- A sweep that is behind the end of its slab is over, whatever its bound. -/
theorem sweepFrom_ended (ended : slab.stop ≤ cursor) :
    slab.sweepFrom shapes scrutiny cursor before stats bound = pure stats := by
  cases bound with
  | zero => rfl
  | succ bound => rw [sweepFrom, if_pos ended]

theorem Sweeps.length_le (sweeps : slab.Sweeps origin listed nodes memory cursor before)
    (lists : slab.Listed origin listed) : nodes.length ≤ Size.wordLimit := by
  have bounded := lists.bounded
  have ordered := (List.pairwise_cons.mp sweeps.ordered).2
  have fits : 0 + 16 * (nodes.map fun node => (node.1, 16)).length ≤ Size.limit := by
    refine length_le_of_ordered ?_ ?_ (Nat.zero_le _)
    · refine List.pairwise_map.mpr ((List.pairwise_map.mp ordered).imp_of_mem ?_)
      intro node other member otherMember apart
      have := (sweeps.inside node member).1
      have := (sweeps.inside other otherMember).1
      dsimp only
      omega
    · intro node member
      obtain ⟨entry, inList, rfl⟩ := List.mem_map.mp member
      have := (sweeps.inside entry inList).2.1
      dsimp only
      omega
  rw [List.length_map] at fits
  simp only [Size.wordLimit, Size.limit, wordBytes] at *
  omega

/-- One step of a sweep. The answer is where it goes on, behind which free block, and what it achieved. -/
def sweepStep (slab : Slab) (shapes : ShapeTable) (scrutiny : Scrutiny) (cursor before : Nat)
    (stats : SweepStats) : Action (Nat × Nat × SweepStats) := do
  let memory ← Action.memory
  let (before, after) :=
    FreeList.seek memory cursor before (FreeList.next memory before) Size.wordLimit
  if after = cursor then
    let onward ← Size.add cursor (FreeList.size memory after)
    return (onward, before, stats)
  else
    match ← (shapes.blockSize? memory cursor : Action _) with
    | none =>
        reportBadObject cursor
        return (cursor + blockUnit, before, stats)
    | some size =>
        scrutiny.inspect cursor size after
        if (memory.header cursor).isMarked then
          Action.onHeader cursor .unmark
          let onward ← Size.add cursor size
          return (onward, before, stats)
        else
          finalize shapes cursor
          let sumFreed ← Size.add stats.sumFreed size
          let (onward, run) ← slab.release cursor size before after
          return (onward, before, { maxFreed := max stats.maxFreed run, sumFreed })

theorem sweepFrom_succ (inside : ¬ slab.stop ≤ cursor) :
    slab.sweepFrom shapes scrutiny cursor before stats (bound + 1) =
      slab.sweepStep shapes scrutiny cursor before stats >>= fun answer =>
        slab.sweepFrom shapes scrutiny answer.1 answer.2.1 answer.2.2 bound := by
  rw [sweepFrom, sweepStep, if_neg inside, bind_assoc]
  refine bind_congr fun memory => ?_
  dsimp only
  split
  · rw [bind_assoc]
    rfl
  · rw [bind_assoc]
    refine bind_congr fun claim => ?_
    cases claim with
    | none => simp only [bind_assoc, pure_bind]
    | some size =>
        simp only [bind_assoc]
        refine bind_congr fun _ => ?_
        split <;> simp only [bind_assoc, pure_bind]

theorem quiet_finalize {object : Nat} :
    (finalize shapes object).Ensures machine fun _ after =>
      machine.Quiet after ∧ machine.Recalls after := by
  let block : Block := ⟨object, 0, .object⟩
  have finalized : (finalize shapes block.start).Ensures machine fun _ after => machine.Quiet after :=
    (ensures_finalize rfl).weaken fun _ _ told => told.1
  exact finalized.respecting
    (respects_finalize (fun machine _ _ => machine.recalls_logging _) shapes object)

/-- A sweep under way, with what it did so far. -/
structure Underway (slab : Slab) (scrutiny : Scrutiny) (shapes : ShapeTable) (origin : Memory)
    (listed : List (Nat × Nat)) (most already : Nat) (sure : Prop) (machine mid : Machine)
    (cursor before : Nat) (stats : SweepStats) : Prop where
  steady : machine.Steady mid
  sweeps : ∃ nodes, slab.Sweeps origin listed nodes mid.memory cursor before
  counted : stats.sumFreed + slab.objects ≤ already + cursor
  reached : sure → cursor ≤ slab.stop + most
  told : ∃ notices, mid.alarms = machine.alarms ++ notices ∧
    slab.Told scrutiny shapes origin listed cursor notices

/-- What a sweep through damaged storage leaves alone, what it reports, and the most that it counts. -/
structure Salvaged (slab : Slab) (scrutiny : Scrutiny) (shapes : ShapeTable) (origin : Memory)
    (listed : List (Nat × Nat)) (total : Nat) (sure : Prop) (machine final : Machine)
    (stats : SweepStats) : Prop where
  steady : machine.Steady final
  outside : ∀ address, address < slab.start ∨ slab.stop ≤ address →
    final.memory.read address = origin.read address
  counted : sure → stats.sumFreed ≤ total
  told : ∃ notices, final.alarms = machine.alarms ++ notices ∧
    slab.Reported scrutiny shapes origin listed notices

/-- A sweep has looked at what it takes for an object of some size, in front of the free blocks `ahead`. -/
structure Met (slab : Slab) (scrutiny : Scrutiny) (shapes : ShapeTable) (origin : Memory)
    (listed : List (Nat × Nat)) (most already : Nat) (sure : Prop) (machine mid : Machine)
    (cursor before : Nat) (stats : SweepStats) (ahead : List (Nat × Nat)) (size : Nat) : Prop where
  inside : cursor < slab.stop
  large : 16 ≤ size
  units : size % 16 = 0
  small : sure → size ≤ most
  steady : machine.Steady mid
  sweeps : slab.Sweeps origin listed ahead mid.memory cursor before
  clear : ∀ entry ∈ ahead, cursor + 16 ≤ entry.1
  counted : stats.sumFreed + slab.objects ≤ already + cursor
  told : ∃ notices, mid.alarms = machine.alarms ++ notices ∧
    slab.Told scrutiny shapes origin listed (cursor + size) notices

section Steps

variable {mid : Machine} {ahead : List (Nat × Nat)} (lists : slab.Listed origin listed)
  (aligned : shapes.Aligned) (slabAligned : slab.stop % 16 = 0)
  (modest : sure → ∀ unit size, slab.ComesBy shapes origin listed unit →
    shapes.blockSize? origin unit = .ok (some size) → size ≤ most)
  (countable : sure → slab.stop + most < Size.limit ∧ already + slab.size + most < Size.limit)

include lists

/-- The search finds the first block that was free when the sweep began and does not lie in front of the
cursor. -/
theorem Underway.sought
    (underway : slab.Underway scrutiny shapes origin listed most already sure machine mid cursor before stats) :
    ∃ found ahead, FreeList.seek mid.memory cursor before (FreeList.next mid.memory before) Size.wordLimit =
        (found, firstOr 0 ahead) ∧
      slab.Sweeps origin listed ahead mid.memory cursor found ∧ (∀ entry ∈ ahead, cursor ≤ entry.1) ∧
        following listed cursor = firstOr 0 ahead := by
  obtain ⟨nodes, sweeps⟩ := underway.sweeps
  obtain ⟨passed, ahead, split, below, above, sought⟩ := sweeps.path.exists_seek
    (List.pairwise_cons.mp sweeps.ordered).2 (sweeps.length_le lists) cursor before
  have sweeps := sweeps.follow split below
  refine ⟨_, ahead, sought, sweeps, above, ?_⟩
  rw [following, ← sweeps.free, onwards_eq_self above]

section Passing

variable (underway : slab.Underway scrutiny shapes origin listed most already sure machine mid cursor before
    stats)
  (inside : ¬ slab.stop ≤ cursor) (sweeps : slab.Sweeps origin listed ahead mid.memory cursor before)
  (above : ∀ entry ∈ ahead, cursor ≤ entry.1) (next : following listed cursor = firstOr 0 ahead)

include underway inside sweeps above next

omit inside in
theorem Underway.passFree (here : firstOr 0 ahead = cursor) :
    Action.Settles (fun _ => do
      let onward ← Size.add cursor (FreeList.size mid.memory (firstOr 0 ahead))
      return (onward, before, stats)) mid sure fun answer final =>
        slab.Underway scrutiny shapes origin listed most already sure machine final answer.1 answer.2.1
          answer.2.2 ∧ cursor + 16 ≤ answer.1 := by
  obtain ⟨steady, _, counted, reached, notices, alarms, told⟩ := underway
  have whole := sweeps.whole
  obtain ⟨entry, member, starts⟩ := exists_of_firstOr (show firstOr 0 ahead ≠ 0 by
    have := sweeps.lower
    simp only [Slab.objects, blockUnit] at this
    omega)
  have bounds := lists.bounds (sweeps.mem_listed member (above entry member))
  have sized := (sweeps.path.present member).2
  rw [starts] at bounds sized
  have wasSized : FreeList.size origin cursor = entry.2 := by
    rw [← sized, here]
    exact congrArg UInt64.toNat (sweeps.same cursor (.inr (.inl (Nat.le_refl _)))).symm
  simp only [sized]
  refine Action.settles_add (fun _ => by omega) fun _ => Action.settles_pure ⟨⟨steady,
    ⟨_, sweeps.advance (Nat.le_add_right cursor entry.2) (by omega)⟩, by dsimp only; omega,
    fun _ => by dsimp only; omega, notices, alarms, wasSized ▸ told.passFree (next.trans here)⟩,
    by dsimp only; omega⟩

include slabAligned in
omit lists above in
theorem Underway.passBad (elsewhere : firstOr 0 ahead ≠ cursor)
    (unknown : shapes.blockSize? origin cursor = .ok none) :
    Action.Settles (fun _ => do
      reportBadObject cursor
      return (cursor + blockUnit, before, stats)) mid sure fun answer final =>
        slab.Underway scrutiny shapes origin listed most already sure machine final answer.1 answer.2.1
          answer.2.2 ∧ cursor + 16 ≤ answer.1 := by
  obtain ⟨steady, _, counted, reached, notices, alarms, told⟩ := underway
  have whole := sweeps.whole
  have header : mid.memory.header cursor = origin.header cursor :=
    congrArg Header.ofWord (sweeps.same cursor (.inr (.inl (Nat.le_refl _))))
  simp only [reportBadObject, bind_assoc]
  rw [Action.settles_memory, Action.settles_note]
  refine Action.settles_pure ⟨⟨steady.trans (mid.quiet_logging _).toSteady,
    ⟨_, sweeps.advance (Nat.le_add_right cursor blockUnit) (by simp only [blockUnit]; omega)⟩,
    by simp only [blockUnit]; omega, fun _ => by simp only [blockUnit]; omega, _, ?_,
    told.passBad (next ▸ elsewhere) unknown⟩, Nat.le_refl _⟩
  rw [Machine.alarms_logging, alarms, List.append_assoc, Memory.tag, header]
  rfl

include modest countable in
omit lists in
theorem Underway.meets (elsewhere : firstOr 0 ahead ≠ cursor)
    (claimed : shapes.blockSize? origin cursor = .ok (some size)) (large : 16 ≤ size) (units : size % 16 = 0) :
    Action.Settles (fun _ => scrutiny.inspect cursor size (firstOr 0 ahead)) mid sure fun _ after =>
      slab.Met scrutiny shapes origin listed most already sure machine after cursor before stats ahead size := by
  obtain ⟨steady, _, counted, reached, notices, alarms, told⟩ := underway
  have header : mid.memory.header cursor = origin.header cursor :=
    congrArg Header.ofWord (sweeps.same cursor (.inr (.inl (Nat.le_refl _))))
  have small (isSure : sure) : size ≤ most :=
    modest isSure cursor size (told.comesBy (Nat.lt_of_not_le inside)) claimed
  refine (Scrutiny.settles_inspect fun isSure => ?_).weaken ?_
  · have := small isSure
    have := countable isSure
    omega
  · rintro _ after ⟨calm, found⟩
    refine ⟨Nat.lt_of_not_le inside, large, units, small, steady.trans calm.toSteady, calm.memory ▸ sweeps,
      sweeps.clear above elsewhere, counted, _, ?_, told.passObject (next ▸ elsewhere) claimed⟩
    rw [found, alarms, next]
    simp only [Scrutiny.findings, header, List.append_assoc]

end Passing

section Objects

variable (met : slab.Met scrutiny shapes origin listed most already sure machine mid cursor before stats ahead
  size)

include slabAligned countable met

omit lists in
/-- What carries a mark loses it and is passed. -/
theorem Met.spares :
    Action.Settles (fun _ => do
      Action.onHeader cursor .unmark
      let onward ← Size.add cursor size
      return (onward, before, stats)) mid sure fun answer final =>
        slab.Underway scrutiny shapes origin listed most already sure machine final answer.1 answer.2.1
          answer.2.2 ∧ cursor + 16 ≤ answer.1 := by
  obtain ⟨inside, large, units, small, steady, sweeps, clear, counted, notices, alarms, told⟩ := met
  rw [Action.settles_onHeader]
  refine Action.settles_add (fun isSure => ?_) fun _ => Action.settles_pure
    ⟨⟨steady.trans (mid.steady_withMemory _), ⟨_, sweeps.unmark clear inside slabAligned large units _⟩,
      by dsimp only; omega, fun isSure => ?_, notices, alarms, told⟩, by dsimp only; omega⟩
  · have := small isSure
    have := countable isSure
    omega
  · have := small isSure
    dsimp only
    omega

/-- Everything else is freed. The free block behind it may join, which was there when the sweep began. -/
theorem Met.frees :
    Action.Settles (fun _ => do
      finalize shapes cursor
      let sumFreed ← Size.add stats.sumFreed size
      let (onward, run) ← slab.release cursor size before (firstOr 0 ahead)
      return (onward, before, { maxFreed := max stats.maxFreed run, sumFreed })) mid sure fun answer final =>
        slab.Underway scrutiny shapes origin listed most already sure machine final answer.1 answer.2.1
          answer.2.2 ∧ cursor + 16 ≤ answer.1 := by
  obtain ⟨inside, large, units, small, steady, sweeps, clear, counted, notices, alarms, told⟩ := met
  refine quiet_finalize.bind_settles ?_
  rintro _ later ⟨finalized, more, recalled⟩
  have sweeps := finalized.memory ▸ sweeps
  -- Bytes of objects are counted once, so that their sum is no larger than the slab.
  refine Action.settles_add (fun isSure => ?_) fun _ => ?_
  · have := small isSure
    have := countable isSure
    simp only [Slab.objects, Slab.stop] at *
    omega
  have fits (isSure : sure) : cursor + size < Size.limit := by
    have := small isSure
    have := countable isSure
    omega
  have recalls : Action.Respects Machine.Recalls (slab.release cursor size before (firstOr 0 ahead)) :=
    slab.respects_release _ _ _ _
  refine ((sweeps.settles_release lists clear inside slabAligned large units fits).respecting
    fun _ => recalls).bind ?_
  rintro ⟨_, run⟩ final ⟨⟨settled, reach, rfl, joins, others, sweeps⟩, further, kept⟩
  have bounds : cursor + size + reach ≤ max (cursor + size) slab.stop := by
    rcases joins with rfl | member
    · omega
    · have := lists.bounds member
      omega
  -- Where a free block is joined as well, the notices go on behind it.
  have told : slab.Told scrutiny shapes origin listed (cursor + size + reach) notices := by
    rcases joins with rfl | member
    · exact told
    · have sized : FreeList.size origin (cursor + size) = reach :=
        ((chain_iff_path.mp lists.chain).present member).2
      exact sized ▸ told.passFree (lists.following_eq_self member)
  refine Action.settles_pure ⟨⟨steady.trans (finalized.toSteady.trans settled), ⟨others, sweeps⟩,
    by dsimp only; omega, fun isSure => ?_, _, ?_, told.mono (List.subset_append_left _ (more ++ further))⟩,
    by dsimp only; omega⟩
  · have := small isSure
    dsimp only
    omega
  · rw [← kept, ← recalled, alarms]
    simp only [List.append_assoc]

end Objects

include aligned slabAligned modest countable

/-- A step leads one unit on at least, or fails for a sum. It counts what it frees, none of it twice. -/
theorem Underway.settles_step (inside : ¬ slab.stop ≤ cursor)
    (underway : slab.Underway scrutiny shapes origin listed most already sure machine mid cursor before stats) :
    Action.Settles (fun _ => slab.sweepStep shapes scrutiny cursor before stats) mid sure
      fun answer final =>
        slab.Underway scrutiny shapes origin listed most already sure machine final answer.1 answer.2.1
          answer.2.2 ∧ cursor + 16 ≤ answer.1 := by
  obtain ⟨found, ahead, sought, sweeps, above, next⟩ := underway.sought lists
  have underway := { underway with sweeps := ⟨ahead, sweeps⟩ }
  have same : shapes.blockSize? mid.memory cursor = shapes.blockSize? origin cursor :=
    ShapeTable.blockSize?_ahead fun address further => sweeps.same address (.inr (.inl further))
  obtain ⟨claim, claimed, granular⟩ := aligned.claims origin sweeps.whole
  unfold sweepStep
  rw [Action.settles_memory]
  simp only [sought]
  by_cases here : firstOr 0 ahead = cursor
  · simp only [if_pos here]
    exact underway.passFree lists sweeps above next here
  · simp only [if_neg here, same, claimed, Action.check_ok, pure_bind]
    cases claim with
    | none => exact underway.passBad slabAligned inside sweeps next here claimed
    | some size =>
        obtain ⟨large, units⟩ := granular size rfl
        refine (underway.meets modest countable inside sweeps above next here claimed large units).bind ?_
        intro _ after met
        split
        · exact met.spares slabAligned countable
        · exact met.frees lists slabAligned countable

/-- A sweep ends, though it may step by what damaged storage claims. It reports all that it comes by. -/
theorem Underway.settles_sweepFrom (enough : slab.stop < cursor + 16 * bound)
    (underway : slab.Underway scrutiny shapes origin listed most already sure machine mid cursor before stats) :
    Action.Settles (fun extra => slab.sweepFrom shapes scrutiny cursor before stats (bound + extra)) mid sure
      fun stats final => slab.Salvaged scrutiny shapes origin listed (already + slab.size + most) sure machine
        final stats := by
  have finished {cursor before bound : Nat} {stats : SweepStats} {mid : Machine} (ended : slab.stop ≤ cursor)
      (underway : slab.Underway scrutiny shapes origin listed most already sure machine mid cursor before
        stats) :
      Action.Settles (fun extra => slab.sweepFrom shapes scrutiny cursor before stats (bound + extra)) mid sure
        fun stats final => slab.Salvaged scrutiny shapes origin listed (already + slab.size + most) sure
          machine final stats := by
    obtain ⟨steady, ⟨nodes, sweeps⟩, counted, reached, notices, alarms, told⟩ := underway
    simp only [sweepFrom_ended ended]
    refine Action.settles_pure ⟨steady, fun address outside => sweeps.same address (by omega),
      fun isSure => ?_, notices, alarms, told.reported ended⟩
    have := reached isSure
    simp only [Slab.objects, Slab.stop] at *
    omega
  induction bound generalizing cursor before stats mid with
  | zero => exact finished (by omega) underway
  | succ bound ih =>
      by_cases ended : slab.stop ≤ cursor
      · exact finished ended underway
      · simp only [Nat.add_right_comm bound 1, sweepFrom_succ ended]
        refine (underway.settles_step lists aligned slabAligned modest countable ended).bind ?_
        rintro ⟨onward, node, later⟩ after ⟨underway, further⟩
        exact ih (by dsimp only at further; omega) underway

/-- So does a sweep of the whole slab, with any bound that is not below its own. -/
theorem Listed.settles_sweep (unchanged : machine.memory = origin) (same : already = stats.sumFreed) :
    Action.Settles (fun extra => slab.sweepFrom shapes scrutiny slab.objects slab.start stats
      (slab.stepBound + extra)) machine sure fun stats final =>
        slab.Salvaged scrutiny shapes origin listed (already + slab.size + most) sure machine final stats := by
  have room := lists.sentinel
  refine Underway.settles_sweepFrom lists aligned slabAligned modest countable ?_ ⟨.refl machine,
    ⟨listed, unchanged ▸ lists.sweeps⟩, Nat.le_of_eq (by rw [same]), fun _ => by omega, [],
    (List.append_nil _).symm, told_start⟩
  simp only [Slab.objects, Slab.stop, stepBound, wordBytes, blockUnit]
  omega

end Steps

end Sweeping

end Slab

end SlabHeap
