import SlabHeap.Proofs.FirstFit
import SlabHeap.Proofs.Settling
import SlabHeap.Proofs.Sweep

namespace SlabHeap

/-! Walks through damaged storage.

Of a slab, `Slab.Listed` only says that its free list is in order. Between the free blocks any word may be
anything, so that a walk may take it for an object and step by what that object claims to take: into free
blocks, into other objects, past the end of the slab. Where a walk comes by then, `Slab.stand`, and what
there is to report, `Slab.findings`, can be read from memory. `Slab.settles_foldFrom` says that a walk ends
all the same, has reported all of that, and that nothing can go wrong but a sum.
-/

/-- The lengths that sizes depend on are whole words in the first unit of an object, which lies in the slab
wherever a walk takes something for an object. -/
def ShapeTable.Aligned (shapes : ShapeTable) : Prop :=
  ∀ tag shape, shapes.get? tag = some shape → ∀ field ∈ shape.size.length,
    field.offset % 8 = 0 ∧ field.offset + wordBytes ≤ blockUnit

namespace ShapeTable

variable {shapes : ShapeTable} {memory after : Memory} {object size : Nat}

/-- Sequences have their lengths right behind their headers. -/
theorem length_standard {tag : UInt8} {shape : Shape} (known : standard.get? tag = some shape) :
    ∀ field ∈ shape.size.length, field.offset = Layout.Sequence.length := by
  simp only [get?] at known
  split at known
  · contradiction
  · cases known
    simp [Shape.context]
  · have listed := Array.mem_of_getElem? known
    simp only [standard, List.mem_toArray, List.mem_cons, List.not_mem_nil, or_false] at listed
    rcases listed with rfl | rfl | rfl | rfl | rfl <;>
      simp [Shape.pair, Shape.vector, Shape.bytes, Shape.weakBox, Shape.ephemeron]

theorem aligned_standard : standard.Aligned := fun _ _ known field isLength => by
  rw [length_standard known field isLength]
  decide

/-- Whatever the words of an object are, it claims whole units, if it claims anything. -/
theorem Aligned.claims (aligned : shapes.Aligned) (memory : Memory) (whole : object % 16 = 0) :
    ∃ claim, shapes.blockSize? memory object = .ok claim ∧
      ∀ size, claim = some size → 16 ≤ size ∧ size % 16 = 0 := by
  have wordAligned : object % 8 = 0 := by omega
  simp only [blockSize?, wordAligned, if_true]
  cases known : shapes.get? (memory.tag object) with
  | none => exact ⟨none, rfl, fun _ never => by cases never⟩
  | some shape =>
      simp only [SizeRule.bytes_eq_ok fun field isLength => (aligned _ shape known field isLength).1]
      refine ⟨_, rfl, fun size rounded => ?_⟩
      obtain ⟨lower, _, rounded, _⟩ := Size.alignUp?_eq_some
        (show Size.alignUp? (max (shape.size.byteCount memory object) 1) (1 <<< 4) = some size from rounded)
      omega

theorem blockSize?_congr (tag : after.tag object = memory.tag object)
    (length : ∀ shape, shapes.get? (memory.tag object) = some shape → ∀ field ∈ shape.size.length,
      after.read (object + field.offset) = memory.read (object + field.offset)) :
    shapes.blockSize? after object = shapes.blockSize? memory object := by
  simp only [blockSize?, tag]
  split
  · cases known : shapes.get? (memory.tag object) with
    | none => rfl
    | some shape =>
        have bytes : shape.size.bytes after object = shape.size.bytes memory object := by
          simp only [SizeRule.bytes]
          cases here : shape.size.length with
          | none => rfl
          | some field =>
              simp only [LengthField.unitsOf, LengthField.units, Memory.field, length shape known field here]
        simp only [bytes]
  · rfl

/-- What an object claims is read from the words behind its start. -/
theorem blockSize?_ahead (same : ∀ address, object ≤ address → after.read address = memory.read address) :
    shapes.blockSize? after object = shapes.blockSize? memory object :=
  blockSize?_congr (congrArg (fun word => (Header.ofWord word).tag) (same object (Nat.le_refl _)))
    fun _ _ field _ => same _ (Nat.le_add_right object field.offset)

end ShapeTable

namespace Scrutiny

variable {scrutiny : Scrutiny} {object size free : Nat} {machine : Machine} {sure : Prop}

/-- What there is to report of an object in front of the free block `free`. -/
def findings (scrutiny : Scrutiny) (memory : Memory) (object size free : Nat) : List Notice :=
  if scrutiny.enabled then
    (if (memory.header object).isValid then [] else [.badMagic object (memory.header object).magic]) ++
      if free ≠ 0 ∧ free < object + size then [.badSize object size free] else []
  else []

/-- Looking at an object reports what there is to report, or fails where the object claims to reach past
all addresses. -/
theorem settles_inspect (fits : sure → object + size < Size.limit) :
    Action.Settles (fun _ => scrutiny.inspect object size free) machine sure fun _ after =>
      machine.Quiet after ∧
        after.alarms = machine.alarms ++ scrutiny.findings machine.memory object size free := by
  have sized : ∀ (after : Machine) (notices : List Notice), machine.Quiet after →
      after.alarms = machine.alarms ++ notices →
      Action.Settles (fun _ => (do
        if free ≠ 0 then
          if free < (← Size.add object size) then Action.note (.badSize object size free) : Action Unit))
        after sure fun _ final => machine.Quiet final ∧ final.alarms = machine.alarms ++ (notices ++
          if free ≠ 0 ∧ free < object + size then [.badSize object size free] else []) := by
    intro after notices quiet told
    by_cases none : free = 0
    · simp only [none, ne_eq, not_true_eq_false, if_false, false_and, List.append_nil]
      exact Action.settles_pure ⟨quiet, told⟩
    · simp only [ne_eq, none, not_false_eq_true, if_true, true_and]
      refine Action.settles_add fits fun _ => ?_
      split
      · refine (Action.ensures_last_note.mpr ⟨quiet.trans (after.quiet_logging _), ?_⟩).settles
        rw [Machine.alarms_logging, told, List.append_assoc]
        rfl
      · refine Action.settles_pure ⟨quiet, ?_⟩
        rw [told, List.append_nil]
  cases enabled : scrutiny.enabled with
  | false =>
      simp only [inspect, findings, enabled, Bool.false_eq_true, if_false, List.append_nil]
      exact Action.settles_pure ⟨.refl machine, rfl⟩
  | true =>
      simp only [inspect, findings, enabled, if_true]
      rw [Action.settles_memory]
      cases valid : (machine.memory.header object).isValid with
      | true => exact sized machine [] (.refl machine) (List.append_nil _).symm
      | false =>
          simp only [Bool.false_eq_true, if_false]
          rw [Action.settles_note]
          exact sized _ _ (machine.quiet_logging _) (machine.alarms_logging _)

end Scrutiny

namespace FreeList

variable {memory : Memory} {nodes : List (Nat × Nat)} {node : Nat}

theorem exists_divide (ordered : (nodes.map (·.1)).Pairwise (· < ·)) (limit : Nat) : ∃ passed ahead,
    nodes = passed ++ ahead ∧ (∀ entry ∈ passed, entry.1 < limit) ∧
      ∀ entry ∈ ahead, limit ≤ entry.1 := by
  induction nodes with
  | nil => exact ⟨[], [], rfl, by simp, by simp⟩
  | cons head rest ih =>
      obtain ⟨first, later⟩ := List.pairwise_cons.mp ordered
      by_cases below : head.1 < limit
      · obtain ⟨passed, ahead, rfl, lower, upper⟩ := ih later
        exact ⟨head :: passed, ahead, rfl, List.forall_mem_cons.mpr ⟨below, lower⟩, upper⟩
      · refine ⟨[], head :: rest, rfl, by simp, List.forall_mem_cons.mpr ⟨by omega, ?_⟩⟩
        intro entry member
        have : head.1 < entry.1 := first entry.1 (List.mem_map_of_mem member)
        omega

theorem exists_of_firstOr (present : firstOr 0 nodes ≠ 0) : ∃ entry ∈ nodes, entry.1 = firstOr 0 nodes := by
  cases nodes with
  | nil => exact absurd rfl present
  | cons entry rest => exact ⟨entry, List.mem_cons_self, rfl⟩

/-- A search along nodes in address order stops at the first one that is not below the limit. -/
theorem Path.exists_seek (path : Path memory node nodes 0)
    (ordered : (nodes.map (·.1)).Pairwise (· < ·)) (short : nodes.length ≤ Size.wordLimit)
    (limit before : Nat) : ∃ passed ahead, nodes = passed ++ ahead ∧
      (∀ entry ∈ passed, entry.1 < limit) ∧ (∀ entry ∈ ahead, limit ≤ entry.1) ∧
      FreeList.seek memory limit before node Size.wordLimit =
        (lastOr before passed, firstOr 0 ahead) := by
  obtain ⟨passed, ahead, rfl, below, above⟩ := exists_divide ordered limit
  refine ⟨passed, ahead, rfl, below, above, path.seek below above ?_⟩
  rw [List.length_append] at short
  omega

/-- The blocks of a list that do not lie in front of an address. -/
def onwards (listed : List (Nat × Nat)) (address : Nat) : List (Nat × Nat) :=
  listed.filter (address ≤ ·.1)

/-- The first free block that does not lie in front of an address, or 0. -/
def following (listed : List (Nat × Nat)) (address : Nat) : Nat := firstOr 0 (onwards listed address)

theorem onwards_append (left right : List (Nat × Nat)) (address : Nat) :
    onwards (left ++ right) address = onwards left address ++ onwards right address :=
  List.filter_append left right

theorem onwards_eq_nil {address : Nat} (below : ∀ entry ∈ nodes, entry.1 < address) :
    onwards nodes address = [] :=
  List.filter_eq_nil_iff.mpr fun entry member => by simpa using below entry member

theorem onwards_eq_self {address : Nat} (above : ∀ entry ∈ nodes, address ≤ entry.1) :
    onwards nodes address = nodes :=
  List.filter_eq_self.mpr fun entry member => by simpa using above entry member

theorem onwards_onwards {address later : Nat} (further : address ≤ later) :
    onwards (onwards nodes address) later = onwards nodes later := by
  rw [onwards, onwards, onwards, List.filter_filter]
  refine List.filter_congr fun entry _ => ?_
  rw [← Bool.decide_and, decide_eq_decide]
  exact and_iff_left_of_imp fun beyond => further.trans beyond

theorem following_eq {passed ahead : List (Nat × Nat)} {address : Nat}
    (below : ∀ entry ∈ passed, entry.1 < address) (above : ∀ entry ∈ ahead, address ≤ entry.1) :
    following (passed ++ ahead) address = firstOr 0 ahead := by
  rw [following, onwards_append, onwards_eq_nil below, onwards_eq_self above, List.nil_append]

end FreeList

open FreeList

namespace Slab

/-- Where one comes from a place in a slab by what is stored there: behind a free block, behind what an
object claims to take, or to the next unit. -/
def stride (shapes : ShapeTable) (memory : Memory) (listed : List (Nat × Nat)) (place : Nat) : Nat :=
  if following listed place = place then place + FreeList.size memory place
  else
    match shapes.blockSize? memory place with
    | .ok (some size) => place + size
    | _ => place + blockUnit

/-- The places where one comes by, one after the other. -/
def stand (slab : Slab) (shapes : ShapeTable) (memory : Memory) (listed : List (Nat × Nat)) : Nat → Nat
  | 0 => slab.objects
  | count + 1 => stride shapes memory listed (slab.stand shapes memory listed count)

/-- What there is to report at a place. -/
def findings (scrutiny : Scrutiny) (shapes : ShapeTable) (memory : Memory) (listed : List (Nat × Nat))
    (place : Nat) : List Notice :=
  if following listed place = place then []
  else
    match shapes.blockSize? memory place with
    | .ok (some size) => scrutiny.findings memory place size (following listed place)
    | _ => [.badObject place (memory.tag place)]

/-- One comes by the place. -/
def ComesBy (slab : Slab) (shapes : ShapeTable) (memory : Memory) (listed : List (Nat × Nat)) (place : Nat) :
    Prop :=
  place < slab.stop ∧ ∃ count, slab.stand shapes memory listed count = place

/-- All that there is to report in the slab is among the notices. -/
def Reported (slab : Slab) (scrutiny : Scrutiny) (shapes : ShapeTable) (memory : Memory)
    (listed : List (Nat × Nat)) (notices : List Notice) : Prop :=
  ∀ place, slab.ComesBy shapes memory listed place →
    findings scrutiny shapes memory listed place ⊆ notices

/-- All that there was to report on the way to `cursor` is among the notices. -/
def Told (slab : Slab) (scrutiny : Scrutiny) (shapes : ShapeTable) (memory : Memory)
    (listed : List (Nat × Nat)) (cursor : Nat) (notices : List Notice) : Prop :=
  ∃ count, slab.stand shapes memory listed count = cursor ∧ ∀ index < count,
    findings scrutiny shapes memory listed (slab.stand shapes memory listed index) ⊆ notices

section Told

variable {slab : Slab} {scrutiny : Scrutiny} {shapes : ShapeTable} {memory : Memory}
  {listed : List (Nat × Nat)} {cursor size : Nat} {notices more : List Notice}

theorem le_stride (place : Nat) : place ≤ stride shapes memory listed place := by
  unfold stride
  split
  · exact Nat.le_add_right _ _
  · split <;> exact Nat.le_add_right _ _

theorem stand_mono {first second : Nat} (ordered : first ≤ second) :
    slab.stand shapes memory listed first ≤ slab.stand shapes memory listed second := by
  induction ordered with
  | refl => exact Nat.le_refl _
  | step _ ih => exact ih.trans (le_stride _)

theorem told_start : slab.Told scrutiny shapes memory listed slab.objects [] :=
  ⟨0, rfl, fun _ never => absurd never (Nat.not_lt_zero _)⟩

theorem Told.onward (told : slab.Told scrutiny shapes memory listed cursor notices)
    (found : findings scrutiny shapes memory listed cursor ⊆ notices ++ more) :
    slab.Told scrutiny shapes memory listed (stride shapes memory listed cursor) (notices ++ more) := by
  obtain ⟨count, rfl, earlier⟩ := told
  refine ⟨count + 1, rfl, fun index before => ?_⟩
  rcases Nat.lt_succ_iff_lt_or_eq.mp before with further | rfl
  · exact List.Subset.trans (earlier index further) (List.subset_append_left _ _)
  · exact found

/-- At a free block there is nothing to report. -/
theorem Told.passFree (told : slab.Told scrutiny shapes memory listed cursor notices)
    (isFree : following listed cursor = cursor) :
    slab.Told scrutiny shapes memory listed (cursor + FreeList.size memory cursor) notices := by
  have nothing : findings scrutiny shapes memory listed cursor ⊆ notices ++ [] := by
    simp [findings, isFree]
  have onward := told.onward nothing
  rwa [stride, if_pos isFree, List.append_nil] at onward

/-- Storage that nothing is known of is reported and passed unit by unit. -/
theorem Told.passBad (told : slab.Told scrutiny shapes memory listed cursor notices)
    (elsewhere : following listed cursor ≠ cursor) (unknown : shapes.blockSize? memory cursor = .ok none) :
    slab.Told scrutiny shapes memory listed (cursor + blockUnit)
      (notices ++ [.badObject cursor (memory.tag cursor)]) := by
  have found : findings scrutiny shapes memory listed cursor ⊆
      notices ++ [.badObject cursor (memory.tag cursor)] := by
    simp [findings, elsewhere, unknown]
  have onward := told.onward found
  simpa only [stride, if_neg elsewhere, unknown] using onward

/-- An object is looked at and passed. -/
theorem Told.passObject (told : slab.Told scrutiny shapes memory listed cursor notices)
    (elsewhere : following listed cursor ≠ cursor)
    (claimed : shapes.blockSize? memory cursor = .ok (some size)) :
    slab.Told scrutiny shapes memory listed (cursor + size)
      (notices ++ scrutiny.findings memory cursor size (following listed cursor)) := by
  have found : findings scrutiny shapes memory listed cursor ⊆
      notices ++ scrutiny.findings memory cursor size (following listed cursor) := by
    simp [findings, elsewhere, claimed]
  have onward := told.onward found
  simpa only [stride, if_neg elsewhere, claimed] using onward

theorem Told.mono (told : slab.Told scrutiny shapes memory listed cursor notices)
    (kept : notices ⊆ more) : slab.Told scrutiny shapes memory listed cursor more := by
  obtain ⟨count, reached, earlier⟩ := told
  exact ⟨count, reached, fun index before => List.Subset.trans (earlier index before) kept⟩

theorem Told.comesBy (told : slab.Told scrutiny shapes memory listed cursor notices)
    (inside : cursor < slab.stop) : slab.ComesBy shapes memory listed cursor := by
  obtain ⟨count, reached, _⟩ := told
  exact ⟨inside, count, reached⟩

theorem Told.reported (told : slab.Told scrutiny shapes memory listed cursor notices)
    (ended : slab.stop ≤ cursor) : slab.Reported scrutiny shapes memory listed notices := by
  obtain ⟨count, rfl, earlier⟩ := told
  rintro _ ⟨inside, index, rfl⟩
  refine earlier index (Nat.lt_of_not_le fun later => ?_)
  have : slab.stand shapes memory listed count ≤ slab.stand shapes memory listed index := stand_mono later
  omega

end Told

/-- A free block is the first one that does not lie in front of it. -/
theorem Listed.following_eq_self {slab : Slab} {memory : Memory} {listed : List (Nat × Nat)}
    {entry : Nat × Nat} (lists : slab.Listed memory listed) (member : entry ∈ listed) :
    following listed entry.1 = entry.1 := by
  have ordered := (List.pairwise_cons.mp lists.increasing).2
  obtain ⟨passed, ahead, rfl, below, above⟩ := exists_divide ordered entry.1
  rw [following_eq below above]
  have inAhead : entry ∈ ahead :=
    (List.mem_append.mp member).resolve_left fun behind => Nat.lt_irrefl _ (below entry behind)
  cases ahead with
  | nil => cases inAhead
  | cons head rest =>
      refine Nat.le_antisymm ?_ (above head List.mem_cons_self)
      rcases List.mem_cons.mp inAhead with rfl | later
      · exact Nat.le_refl _
      · rw [List.map_append, List.pairwise_append] at ordered
        exact Nat.le_of_lt ((List.pairwise_cons.mp ordered.2.1).1 _ (List.mem_map_of_mem later))

/-- One comes by whole units behind the sentinel. -/
theorem Listed.comesBy_whole {slab : Slab} {shapes : ShapeTable} {memory : Memory} {listed : List (Nat × Nat)}
    {place : Nat} (lists : slab.Listed memory listed) (aligned : shapes.Aligned)
    (comesBy : slab.ComesBy shapes memory listed place) : slab.start + 16 ≤ place ∧ place % 16 = 0 := by
  obtain ⟨-, count, rfl⟩ := comesBy
  induction count with
  | zero =>
      have := lists.startAligned
      simp only [stand, Slab.objects, blockUnit] at *
      omega
  | succ count ih =>
      obtain ⟨lower, whole⟩ := ih
      rw [stand, stride]
      split
      · next isFree =>
        have present : following listed (slab.stand shapes memory listed count) ≠ 0 := by omega
        obtain ⟨entry, ahead, starts⟩ := exists_of_firstOr present
        have member : entry ∈ listed := List.mem_of_mem_filter ahead
        have bounds := lists.bounds member
        have sized := ((chain_iff_path.mp lists.chain).present member).2
        rw [starts, ← following, isFree] at sized
        omega
      · obtain ⟨claim, claimed, granular⟩ := aligned.claims memory whole
        split
        · next size found =>
          obtain ⟨_, units⟩ := granular size (Except.ok.inj (claimed.symm.trans found))
          omega
        · simp only [blockUnit]
          omega

section Walks

variable {σ : Type} {slab : Slab} {shapes : ShapeTable} {scrutiny : Scrutiny}
  {visit : σ → Nat → Action σ} {origin memory : Memory} {listed : List (Nat × Nat)} {sure : Prop}
  {cursor free bound : Nat} {state : σ} {machine mid : Machine}

/-- One step of a walk. The answer is where it goes on, with which free block, and in which state. -/
def foldStep (shapes : ShapeTable) (scrutiny : Scrutiny) (visit : σ → Nat → Action σ)
    (cursor free : Nat) (state : σ) : Action (Nat × Nat × σ) := do
  let memory ← Action.memory
  let (_, free) := FreeList.seek memory cursor 0 free Size.wordLimit
  if free = cursor then
    let onward ← Size.add cursor (FreeList.size memory free)
    return (onward, free, state)
  else
    match ← (shapes.blockSize? memory cursor : Action _) with
    | none =>
        reportBadObject cursor
        return (cursor + blockUnit, free, state)
    | some size =>
        scrutiny.inspect cursor size free
        let onward ← Size.add cursor size
        let state ← visit state cursor
        return (onward, free, state)

theorem foldFrom_ended (ended : slab.stop ≤ cursor) :
    slab.foldFrom shapes scrutiny visit cursor free state bound = pure state := by
  cases bound with
  | zero => rfl
  | succ bound => rw [foldFrom, if_pos ended]

theorem foldFrom_succ (inside : ¬ slab.stop ≤ cursor) :
    slab.foldFrom shapes scrutiny visit cursor free state (bound + 1) =
      foldStep shapes scrutiny visit cursor free state >>= fun answer =>
        slab.foldFrom shapes scrutiny visit answer.1 answer.2.1 answer.2.2 bound := by
  rw [foldFrom, foldStep, if_neg inside, bind_assoc]
  refine bind_congr fun memory => ?_
  dsimp only
  split
  · rw [bind_assoc]
    rfl
  · rw [bind_assoc]
    refine bind_congr fun claim => ?_
    cases claim <;> simp only [bind_assoc, pure_bind]

/-- A walk stands at `cursor`, where it goes on along the free list from `free`. What lies ahead is as it
was in `origin`. -/
structure Walks (slab : Slab) (origin : Memory) (listed : List (Nat × Nat)) (memory : Memory)
    (cursor free : Nat) : Prop where
  whole : cursor % 16 = 0
  lower : slab.objects ≤ cursor
  list : slab.Listed memory listed
  remaining : ∃ earlier rest, listed = earlier ++ rest ∧ (∀ entry ∈ earlier, entry.1 < cursor) ∧
    free = firstOr 0 rest
  same : ∀ address, cursor ≤ address → memory.read address = origin.read address

theorem Listed.walks (lists : slab.Listed memory listed) :
    slab.Walks memory listed memory slab.objects (slab.firstFree memory) where
  whole := by
    have := lists.startAligned
    simp only [Slab.objects, blockUnit] at *
    omega
  lower := Nat.le_refl _
  list := lists
  remaining := ⟨[], listed, rfl, by simp, (chain_iff_path.mp lists.chain).start_eq⟩
  same _ _ := rfl

/-- The search for the next free block finds the first one that does not lie in front of the cursor. -/
theorem Walks.sought (walks : slab.Walks origin listed memory cursor free) : ∃ before earlier ahead,
    listed = earlier ++ ahead ∧ (∀ entry ∈ earlier, entry.1 < cursor) ∧ (∀ entry ∈ ahead, cursor ≤ entry.1) ∧
      FreeList.seek memory cursor 0 free Size.wordLimit = (before, firstOr 0 ahead) := by
  obtain ⟨earlier, rest, rfl, behind, rfl⟩ := walks.remaining
  obtain ⟨mid, _, path⟩ := path_append.mp (chain_iff_path.mp walks.list.chain)
  obtain rfl := path.start_eq
  have ordered := (List.pairwise_cons.mp walks.list.increasing).2.sublist
    ((List.sublist_append_right earlier rest).map _)
  have short : rest.length ≤ Size.wordLimit := by
    have := walks.list.length_le
    rw [List.length_append] at this
    omega
  obtain ⟨passed, ahead, rfl, below, above, found⟩ := path.exists_seek ordered short cursor 0
  exact ⟨_, earlier ++ passed, ahead, (List.append_assoc _ _ _).symm,
    List.forall_mem_append.mpr ⟨behind, below⟩, above, found⟩

/-- Wherever a step leads, the free list goes on from the block that was found. -/
theorem Walks.advance {earlier ahead : List (Nat × Nat)} {onward : Nat} {after : Memory}
    (walks : slab.Walks origin listed memory cursor free) (split : listed = earlier ++ ahead)
    (below : ∀ entry ∈ earlier, entry.1 < cursor) (further : cursor ≤ onward) (whole : onward % 16 = 0)
    (list : slab.Listed after listed)
    (kept : ∀ address, onward ≤ address → after.read address = memory.read address) :
    slab.Walks origin listed after onward (firstOr 0 ahead) where
  whole := whole
  lower := walks.lower.trans further
  list := list
  remaining := ⟨earlier, ahead, split, fun entry member => (below entry member).trans_le further, rfl⟩
  same address behind := (kept address behind).trans (walks.same address (further.trans behind))

/-- A walk through the slab: it stands somewhere in a memory that meets the invariant, and has reported
what there was on the way. -/
structure Walking (slab : Slab) (scrutiny : Scrutiny) (shapes : ShapeTable)
    (Inv : σ → Machine → Prop) (origin : Memory) (listed : List (Nat × Nat)) (machine mid : Machine)
    (cursor free : Nat) (state : σ) : Prop where
  holds : Inv state mid
  walks : slab.Walks origin listed mid.memory cursor free
  told : ∃ notices, mid.alarms = machine.alarms ++ notices ∧
    slab.Told scrutiny shapes origin listed cursor notices

section Steps

variable (Inv : σ → Machine → Prop)
  (quiet : ∀ state machine after, Inv state machine → machine.Quiet after → Inv state after)
  (modest : sure → ∀ unit size, slab.ComesBy shapes origin listed unit →
    shapes.blockSize? origin unit = .ok (some size) → unit + size < Size.limit)
  (visited : ∀ state unit size machine, Inv state machine → slab.Listed machine.memory listed →
    slab.ComesBy shapes origin listed unit → unit % 16 = 0 →
      shapes.blockSize? machine.memory unit = .ok (some size) →
        (visit state unit).Ensures machine fun state after => Inv state after ∧
          slab.Listed after.memory listed ∧
          ∀ address, unit + size ≤ address → after.memory.read address = machine.memory.read address)
  (recalls : ∀ state object, (visit state object).Respects Machine.Recalls)
  (aligned : shapes.Aligned)

section Passing

variable {earlier ahead : List (Nat × Nat)}
  (walking : slab.Walking scrutiny shapes Inv origin listed machine mid cursor free state)
  (split : listed = earlier ++ ahead) (below : ∀ entry ∈ earlier, entry.1 < cursor)
  (above : ∀ entry ∈ ahead, cursor ≤ entry.1)

include walking split below above

theorem Walking.passFree (here : firstOr 0 ahead = cursor) :
    Action.Settles (fun _ => do
      let onward ← Size.add cursor (FreeList.size mid.memory (firstOr 0 ahead))
      return (onward, firstOr 0 ahead, state)) mid sure fun answer final =>
        slab.Walking scrutiny shapes Inv origin listed machine final answer.1 answer.2.1 answer.2.2 ∧
          cursor + 16 ≤ answer.1 := by
  obtain ⟨holds, walks, notices, alarms, told⟩ := walking
  have whole := walks.whole
  have next : following listed cursor = firstOr 0 ahead := split ▸ following_eq below above
  obtain ⟨entry, inAhead, starts⟩ := exists_of_firstOr (show firstOr 0 ahead ≠ 0 by
    have := walks.lower
    simp only [Slab.objects, blockUnit] at this
    omega)
  have member : entry ∈ listed := split ▸ List.mem_append_right earlier inAhead
  have bounds := walks.list.bounds member
  have sized := ((chain_iff_path.mp walks.list.chain).present member).2
  rw [starts] at bounds sized
  have wasSized : FreeList.size origin cursor = entry.2 := by
    rw [← sized, here]
    exact congrArg UInt64.toNat (walks.same cursor (Nat.le_refl _)).symm
  simp only [sized]
  refine Action.settles_add (fun _ => by omega) fun _ => Action.settles_pure ?_
  have walks := walks.advance split below (Nat.le_add_right cursor entry.2) (by omega) walks.list
    fun _ _ => rfl
  exact ⟨⟨holds, walks, notices, alarms, wasSized ▸ told.passFree (next.trans here)⟩, by dsimp only; omega⟩

include quiet in
theorem Walking.passBad (elsewhere : firstOr 0 ahead ≠ cursor)
    (unknown : shapes.blockSize? origin cursor = .ok none) :
    Action.Settles (fun _ => do
      reportBadObject cursor
      return (cursor + blockUnit, firstOr 0 ahead, state)) mid sure fun answer final =>
        slab.Walking scrutiny shapes Inv origin listed machine final answer.1 answer.2.1 answer.2.2 ∧
          cursor + 16 ≤ answer.1 := by
  obtain ⟨holds, walks, notices, alarms, told⟩ := walking
  have whole := walks.whole
  have next : following listed cursor = firstOr 0 ahead := split ▸ following_eq below above
  have header : mid.memory.header cursor = origin.header cursor :=
    congrArg Header.ofWord (walks.same cursor (Nat.le_refl _))
  simp only [reportBadObject, bind_assoc]
  rw [Action.settles_memory, Action.settles_note]
  have walks := walks.advance split below (Nat.le_add_right cursor blockUnit)
    (by simp only [blockUnit]; omega) walks.list fun _ _ => rfl
  refine Action.settles_pure ⟨⟨quiet _ _ _ holds (mid.quiet_logging _), walks, _, ?_,
    told.passBad (next ▸ elsewhere) unknown⟩, Nat.le_refl _⟩
  rw [Machine.alarms_logging, alarms, List.append_assoc, Memory.tag, header]
  rfl

include quiet modest visited recalls in
theorem Walking.passObject {size : Nat} (inside : cursor < slab.stop) (elsewhere : firstOr 0 ahead ≠ cursor)
    (claimed : shapes.blockSize? origin cursor = .ok (some size)) (large : 16 ≤ size) (units : size % 16 = 0) :
    Action.Settles (fun _ => do
      scrutiny.inspect cursor size (firstOr 0 ahead)
      let onward ← Size.add cursor size
      let state ← visit state cursor
      return (onward, firstOr 0 ahead, state)) mid sure fun answer final =>
        slab.Walking scrutiny shapes Inv origin listed machine final answer.1 answer.2.1 answer.2.2 ∧
          cursor + 16 ≤ answer.1 := by
  obtain ⟨holds, walks, notices, alarms, told⟩ := walking
  have whole := walks.whole
  have comesBy := told.comesBy inside
  have next : following listed cursor = firstOr 0 ahead := split ▸ following_eq below above
  have header : mid.memory.header cursor = origin.header cursor :=
    congrArg Header.ofWord (walks.same cursor (Nat.le_refl _))
  have fits (isSure : sure) := modest isSure cursor size comesBy claimed
  refine (Scrutiny.settles_inspect fits).bind ?_
  rintro _ after ⟨calm, found⟩
  refine Action.settles_add fits fun _ => ?_
  have still : shapes.blockSize? after.memory cursor = .ok (some size) :=
    calm.memory ▸ (ShapeTable.blockSize?_ahead walks.same).trans claimed
  have seen := visited state cursor size after (quiet _ _ _ holds calm) (calm.memory ▸ walks.list)
    comesBy whole still
  refine (seen.respecting (recalls state cursor)).bind_settles ?_
  rintro state final ⟨⟨holds, list, kept⟩, more, recalled⟩
  have walks := walks.advance split below (Nat.le_add_right cursor size) (by omega) list (calm.memory ▸ kept)
  refine Action.settles_pure ⟨⟨holds, walks, _, ?_,
    (told.passObject (next ▸ elsewhere) claimed).mono (List.subset_append_left _ more)⟩, by dsimp only; omega⟩
  rw [← recalled, found, alarms, next]
  simp only [Scrutiny.findings, header, List.append_assoc]

end Passing

include quiet modest visited recalls aligned

/-- A step leads one unit on at least, or fails where an object claims to reach past all addresses. -/
theorem Walking.settles_step (inside : ¬ slab.stop ≤ cursor)
    (walking : slab.Walking scrutiny shapes Inv origin listed machine mid cursor free state) :
    Action.Settles (fun _ => foldStep shapes scrutiny visit cursor free state) mid sure
      fun answer final =>
        slab.Walking scrutiny shapes Inv origin listed machine final answer.1 answer.2.1 answer.2.2 ∧
          cursor + 16 ≤ answer.1 := by
  have walks := walking.walks
  obtain ⟨before, earlier, ahead, split, below, above, sought⟩ := walks.sought
  obtain ⟨claim, claimed, granular⟩ := aligned.claims origin walks.whole
  unfold foldStep
  rw [Action.settles_memory]
  simp only [sought]
  by_cases here : firstOr 0 ahead = cursor
  · simp only [if_pos here]
    exact walking.passFree Inv split below above here
  · simp only [if_neg here, ShapeTable.blockSize?_ahead walks.same, claimed, Action.check_ok, pure_bind]
    cases claim with
    | none => exact walking.passBad Inv quiet split below above here claimed
    | some size =>
        obtain ⟨large, units⟩ := granular size rfl
        exact walking.passObject Inv quiet modest visited recalls split below above
          (Nat.lt_of_not_le inside) here claimed large units

/-- A walk ends, though it may step by what damaged storage claims. It reports all that it comes by. -/
theorem Walking.settles_foldFrom (enough : slab.stop < cursor + 16 * bound)
    (walking : slab.Walking scrutiny shapes Inv origin listed machine mid cursor free state) :
    Action.Settles
      (fun extra => slab.foldFrom shapes scrutiny visit cursor free state (bound + extra)) mid sure
      fun state final => Inv state final ∧ slab.Listed final.memory listed ∧
        ∃ notices, final.alarms = machine.alarms ++ notices ∧
          slab.Reported scrutiny shapes origin listed notices := by
  have finished {cursor free bound : Nat} {state : σ} {mid : Machine} (ended : slab.stop ≤ cursor)
      (walking : slab.Walking scrutiny shapes Inv origin listed machine mid cursor free state) :
      Action.Settles
        (fun extra => slab.foldFrom shapes scrutiny visit cursor free state (bound + extra)) mid sure
        fun state final => Inv state final ∧ slab.Listed final.memory listed ∧
          ∃ notices, final.alarms = machine.alarms ++ notices ∧
            slab.Reported scrutiny shapes origin listed notices := by
    obtain ⟨holds, walks, notices, alarms, told⟩ := walking
    simp only [foldFrom_ended ended]
    exact Action.settles_pure ⟨holds, walks.list, notices, alarms, told.reported ended⟩
  induction bound generalizing cursor free state mid with
  | zero => exact finished (by omega) walking
  | succ bound ih =>
      by_cases ended : slab.stop ≤ cursor
      · exact finished ended walking
      · simp only [Nat.add_right_comm bound 1, foldFrom_succ ended]
        refine (walking.settles_step Inv quiet modest visited recalls aligned ended).bind ?_
        rintro ⟨onward, next, later⟩ after ⟨walking, further⟩
        exact ih (by dsimp only at further; omega) walking

/-- So does a walk through the whole slab, with any bound that is not below its own. -/
theorem Listed.settles_walk (lists : slab.Listed machine.memory listed) (unchanged : machine.memory = origin)
    (holds : Inv state machine) :
    Action.Settles (fun extra => do
      let memory ← Action.memory
      slab.foldFrom shapes scrutiny visit slab.objects (slab.firstFree memory) state (slab.stepBound + extra))
      machine sure fun state final => Inv state final ∧ slab.Listed final.memory listed ∧
        ∃ notices, final.alarms = machine.alarms ++ notices ∧
          slab.Reported scrutiny shapes origin listed notices := by
  rw [Action.settles_memory]
  refine Walking.settles_foldFrom Inv quiet modest visited recalls aligned ?_ ⟨holds, unchanged ▸ lists.walks,
    [], (List.append_nil _).symm, told_start⟩
  simp only [Slab.objects, Slab.stop, stepBound, wordBytes, blockUnit]
  omega

end Steps

end Walks

end Slab

end SlabHeap
