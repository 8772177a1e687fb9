import SlabHeap.Proofs.PairedEdits

namespace SlabHeap

/-! Save frames of parallel heaps.

What saving and dropping does to the chain of a context is told number by number, `Machine.Chained.saves` and
`Machine.Chained.drops`; so chains go on running alongside, and parallel heaps stay parallel.
-/

open Block

namespace Machine.Chained

variable {machine final : Machine} {context : Context} {frame changed : Frame} {numbers : List Nat}
  {number address : Nat} {value : Value}

theorem refill (chained : machine.Chained context address numbers) (found : machine.frame? number = some frame)
    (reframed : machine.Reframed final number (some changed))
    (links : changed.linked = frame.linked ∧ changed.context = frame.context ∧ changed.outer = frame.outer) :
    final.Chained context address numbers := by
  refine chained.change fun other _ otherFrame otherFound => ?_
  by_cases same : other = number
  · subst same
    obtain rfl := Option.some.inj (found.symm.trans otherFound)
    exact ⟨changed, reframed.frame, links⟩
  · exact ⟨otherFrame, (reframed.others other same).trans otherFound, rfl, rfl, rfl⟩

/-- A chain stays when something becomes of a frame that is not linked. -/
theorem besides {replacement : Option Frame} (chained : machine.Chained context address numbers)
    (found : machine.frame? number = some frame) (unlinked : frame.linked = false)
    (reframed : machine.Reframed final number replacement) : final.Chained context address numbers := by
  refine chained.congr fun other listed => reframed.others other fun same => ?_
  subst same
  obtain ⟨linkedFrame, linkedFound, linked, _⟩ := chained.present listed
  obtain rfl := Option.some.inj (found.symm.trans linkedFound)
  simp [unlinked] at linked

variable (chained : machine.Chained frame.context (frame.context.saves machine.memory) numbers)
  (found : machine.frame? number = some frame) (orderly : machine.Orderly)

include chained found orderly

/-- A frame joins the chain of its context when a value is saved in it, if it was not linked. -/
theorem saves (memory : final.memory = machine.linkingMemory number frame)
    (reframed : machine.Reframed final number (some ((machine.linking frame).save value))) :
    final.Chained frame.context (frame.context.saves final.memory)
      (if frame.linked then numbers else number :: numbers) := by
  cases linked : frame.linked with
  | true =>
      simp only [linkingMemory, linking, linked, if_true] at memory reframed
      rw [memory]
      exact chained.refill found reframed Frame.links_save
  | false =>
      have further := chained.besides found linked reframed
      simp only [linkingMemory, linking, linked, Bool.false_eq_true, if_false] at memory reframed
      rw [memory, Context.saves_setSaves (orderly.address_lt found)]
      obtain ⟨isLinked, owned, outer⟩ := @Frame.links_save
        { frame with outer := frame.context.saves machine.memory, linked := true } value
      exact ⟨rfl, _, reframed.frame, isLinked, owned, outer ▸ further⟩

/-- The innermost frame leaves the chain when it is dropped. -/
theorem drops (innermost : frame.linked = true → frame.context.saves machine.memory = frameAddress number)
    (memory : final.memory = if frame.linked then frame.context.setSaves machine.memory frame.outer
      else machine.memory)
    (reframed : machine.Reframed final number none) :
    final.Chained frame.context (frame.context.saves final.memory)
      (if frame.linked then numbers.tail else numbers) := by
  cases linked : frame.linked with
  | true =>
      simp only [linked, if_true] at memory
      cases numbers with
      | nil => exact absurd ((innermost linked).symm.trans chained) (frameAddress_ne_zero number)
      | cons head rest =>
          have distinct := (List.nodup_cons.mp chained.nodup).1
          obtain ⟨starts, inner, innerFound, _, _, further⟩ := chained
          obtain rfl := frameAddress_inj.mp ((innermost linked).symm.trans starts)
          obtain rfl := Option.some.inj (found.symm.trans innerFound)
          rw [memory, Context.saves_setSaves (further.address_lt orderly)]
          exact further.congr fun later listed => reframed.others later fun equal => distinct (equal ▸ listed)
  | false =>
      simp only [linked, Bool.false_eq_true, if_false] at memory
      rw [memory]
      exact chained.besides found linked reframed

end Machine.Chained

namespace Frame.Echoed

variable {heap copy : Heap} {frame other : Frame} {machine image : Machine} {value : Value} {context : Context}

theorem fresh (inside : heap.contains context.address = true) :
    ({ context } : Frame).Echoed heap copy { context := heap.carryContext copy context } where
  owned := inside
  context := rfl
  linked := rfl
  used := rfl
  fixed := by
    have same : heap.carry copy .no = .no := Heap.moveValue_of_none rfl
    simp only [Vector.map_replicate, same]
  overflow := by simp
  inside value listed := by
    have isNo : value = .no := by simpa using listed
    intro address found
    subst isNo
    cases found

variable (echoed : frame.Echoed heap copy other)

include echoed

theorem linking : (machine.linking frame).Echoed heap copy (image.linking other) := by
  obtain ⟨owned, context, linked, used, fixed, overflow, inside⟩ := echoed
  unfold Machine.linking
  rw [linked]
  split
  · next isLinked => exact ⟨owned, context, linked, used, fixed, overflow, inside⟩
  · exact ⟨owned, context, rfl, used, fixed, overflow, inside⟩

variable (inside : heap.RefersInside value)

include inside

theorem save : (frame.save value).Echoed heap copy (other.save (heap.carry copy value)) := by
  obtain ⟨owned, context, linked, used, fixed, overflow, insides⟩ := echoed
  unfold Frame.save
  by_cases room : frame.used < 16
  · rw [dif_pos room, dif_pos (used ▸ room)]
    refine ⟨owned, context, linked, by simp only [used], ?_, overflow, fun held listed => ?_⟩
    · simp only [fixed, used, Vector.map_set]
    · rcases listed with inFixed | spilled
      · have among : held ∈ frame.fixed.set frame.used value room := inFixed
        rcases Vector.mem_or_eq_of_mem_set among with before | isNew
        · exact insides held (.inl before)
        · exact isNew ▸ inside
      · exact insides held (.inr spilled)
  · rw [dif_neg room, dif_neg (used ▸ room)]
    refine ⟨owned, context, linked, used, fixed, by simp only [overflow, Array.map_push], fun held listed => ?_⟩
    rcases listed with inFixed | spilled
    · exact insides held (.inl inFixed)
    · rcases Array.mem_push.mp spilled with before | isNew
      · exact insides held (.inr before)
      · exact isNew ▸ inside

theorem set (index : Nat) : (frame.set index value).Echoed heap copy (other.set index (heap.carry copy value)) := by
  obtain ⟨owned, context, linked, used, fixed, overflow, insides⟩ := echoed
  unfold Frame.set
  by_cases fits : index < 16
  · rw [dif_pos fits, dif_pos fits]
    refine ⟨owned, context, linked, used, by simp only [fixed, Vector.map_set], overflow, fun held listed => ?_⟩
    rcases listed with inFixed | spilled
    · have among : held ∈ frame.fixed.set index value fits := inFixed
      rcases Vector.mem_or_eq_of_mem_set among with before | isNew
      · exact insides held (.inl before)
      · exact isNew ▸ inside
    · exact insides held (.inr spilled)
  · rw [dif_neg fits, dif_neg fits]
    refine ⟨owned, context, linked, used, fixed, by simp only [overflow, Array.map_setIfInBounds], fun held listed => ?_⟩
    rcases listed with inFixed | spilled
    · exact insides held (.inl inFixed)
    · rcases Array.mem_or_eq_of_mem_setIfInBounds spilled with before | isNew
      · exact insides held (.inr before)
      · exact isNew ▸ inside

end Frame.Echoed

namespace Heap

variable {heap copy : Heap} {machine image final copyFinal : Machine} {links more : List (Nat × Nat)}
  {tiling copied : Slab → List Block} {frame copyFrame : Frame} {context : Context} {value : Value}
  {number other index : Nat} {replacement copyReplacement : Option Frame}

namespace Linking

variable (linking : heap.Linking copy links machine image)

include linking

theorem eq_or_apart {first second : Nat × Nat} (listed : first ∈ links) (alsoListed : second ∈ links) :
    first = second ∨ first.1 ≠ second.1 ∧ first.2 ≠ second.2 := by
  by_cases same : first = second
  · exact .inl same
  · have symmetric : Std.Symm fun first second : Nat × Nat => first.1 ≠ second.1 ∧ first.2 ≠ second.2 :=
      ⟨fun _ _ apart => ⟨apart.1.symm, apart.2.symm⟩⟩
    exact .inr (linking.apart.forall listed alsoListed same)

variable (listed : (number, other) ∈ links) (orderly : final.Orderly) (copyOrderly : copyFinal.Orderly)
  (reframed : machine.Reframed final number replacement) (copyReframed : image.Reframed copyFinal other copyReplacement)

include listed orderly copyOrderly reframed copyReframed

/-- A link stays while its frames go on standing for each other. -/
theorem refill (isFrame : replacement = some frame) (isCopy : copyReplacement = some copyFrame)
    (echoed : frame.Echoed heap copy copyFrame) : heap.Linking copy links final copyFinal where
  echoed link inLinks := by
    rcases linking.eq_or_apart inLinks listed with rfl | ⟨first, second⟩
    · exact ⟨frame, reframed.frame.trans isFrame, copyFrame, copyReframed.frame.trans isCopy, echoed⟩
    · obtain ⟨before, found, copyBefore, copyFound, echoed⟩ := linking.echoed link inLinks
      exact ⟨before, (reframed.others _ first).trans found, copyBefore, (copyReframed.others _ second).trans copyFound,
        echoed⟩
  apart := linking.apart
  orderly := orderly
  copyOrderly := copyOrderly

/-- The other links stay when one is given up. -/
theorem drops : heap.Linking copy (links.filter fun link => link.1 ≠ number) final copyFinal where
  echoed link inLinks := by
    obtain ⟨inLinks, kept⟩ := List.mem_filter.mp inLinks
    have distinct : link.1 ≠ number := of_decide_eq_true kept
    rcases linking.eq_or_apart inLinks listed with rfl | ⟨first, second⟩
    · exact absurd rfl distinct
    · obtain ⟨frame, found, copyFrame, copyFound, echoed⟩ := linking.echoed link inLinks
      exact ⟨frame, (reframed.others _ first).trans found, copyFrame, (copyReframed.others _ second).trans copyFound,
        echoed⟩
  apart := linking.apart.filter _
  orderly := orderly
  copyOrderly := copyOrderly

omit listed orderly copyOrderly reframed copyReframed in
theorem opens (inside : heap.contains context.address = true)
    (orderly : ({ machine with frames := machine.frames.push (some { context }) } : Machine).Orderly)
    (copyOrderly : ({ image with
      frames := image.frames.push (some { context := heap.carryContext copy context }) } : Machine).Orderly) :
    heap.Linking copy (links ++ [(machine.frames.size, image.frames.size)])
      { machine with frames := machine.frames.push (some { context }) }
      { image with frames := image.frames.push (some { context := heap.carryContext copy context }) } where
  echoed link inLinks := by
    simp only [Machine.frame?_push]
    rcases List.mem_append.mp inLinks with before | isLast
    · obtain ⟨frame, found, copyFrame, copyFound, echoed⟩ := linking.echoed link before
      rw [if_neg (Nat.ne_of_lt (Machine.frame?_lt found)), if_neg (Nat.ne_of_lt (Machine.frame?_lt copyFound))]
      exact ⟨frame, found, copyFrame, copyFound, echoed⟩
    · obtain rfl := List.mem_singleton.mp isLast
      rw [if_pos rfl, if_pos rfl]
      exact ⟨_, rfl, _, rfl, .fresh inside⟩
  apart := by
    refine List.pairwise_append.mpr ⟨linking.apart, List.pairwise_singleton _ _, fun link before last isLast => ?_⟩
    obtain rfl := List.mem_singleton.mp isLast
    obtain ⟨_, found, _, copyFound, _⟩ := linking.echoed link before
    exact ⟨Nat.ne_of_lt (Machine.frame?_lt found), Nat.ne_of_lt (Machine.frame?_lt copyFound)⟩
  orderly := orderly
  copyOrderly := copyOrderly

end Linking

namespace Parallel

variable (parallel : heap.Parallel copy links tiling copied machine image)

include parallel

theorem opens (isObject : heap.Object tiling context.address)
    (addressed : Machine.frameAddress (machine.frames.size + 1) ≤ Size.limit)
    (copyAddressed : Machine.frameAddress (image.frames.size + 1) ≤ Size.limit) :
    heap.Parallel copy (links ++ [(machine.frames.size, image.frames.size)]) tiling copied
      { machine with frames := machine.frames.push (some { context }) }
      { image with frames := image.frames.push (some { context := heap.carryContext copy context }) } := by
  have tiled := parallel.upheld.tiled
  have alters : heap.Alters (heap.RefersToObject tiling) tiling machine
      { machine with frames := machine.frames.push (some { context }) } :=
    parallel.upheld.opens parallel.orderly addressed
  have copyAlters : copy.Alters (copy.RefersToObject copied) copied image
      { image with frames := image.frames.push (some { context := heap.carryContext copy context }) } :=
    parallel.copyUpheld.opens parallel.copyOrderly copyAddressed
  obtain ⟨block, member, kind, starts⟩ := isObject
  have inHeap := tiled.contains member
  have pushed {machine : Machine} {number : Nat} {frame later : Frame} (found : machine.frame? number = some frame) :
      ({ machine with frames := machine.frames.push (some later) } : Machine).frame? number = some frame := by
    rw [Machine.frame?_push, if_neg (Nat.ne_of_lt (Machine.frame?_lt found)), found]
  refine parallel.amend member kind alters.toUpholds copyAlters.toUpholds
    (parallel.toLinking.opens (starts ▸ inHeap) alters.orderly copyAlters.orderly) (fun _ _ => rfl) (fun _ _ => rfl)
    (fun _ _ found _ => pushed found) (fun _ _ found _ => pushed found)
    (fun _ listed _ _ _ => List.mem_append_left _ listed) ?_
  exact (parallel.objects block member kind).keep (.of_slabs rfl rfl) inHeap kind (parallel.upheld.fits member)
    (tiled.bounds member).2.2.1 (fun _ _ => id) (fun _ _ => rfl) (fun _ _ => rfl) (fun _ _ found _ => pushed found)
    (fun _ _ found _ => pushed found) fun _ listed _ _ _ => List.mem_append_left _ listed

section Frames

variable (listed : (number, other) ∈ links) (found : machine.frame? number = some frame)
  (copyFound : image.frame? other = some copyFrame)

include listed found copyFound

theorem frame_echoed : frame.Echoed heap copy copyFrame := by
  obtain ⟨_, again, _, copyAgain, echoed⟩ := parallel.echoed _ listed
  obtain rfl := Option.some.inj (found.symm.trans again)
  obtain rfl := Option.some.inj (copyFound.symm.trans copyAgain)
  exact echoed

variable (isContext : heap.IsContext tiling machine.memory frame.context)

include isContext

/-- The chains of contexts that stand for each other. -/
theorem chains : ∃ chain : List (Nat × Nat), chain ⊆ links ∧
    machine.Chained frame.context (frame.context.saves machine.memory) (chain.map Prod.fst) ∧
      image.Chained copyFrame.context (copyFrame.context.saves image.memory) (chain.map Prod.snd) := by
  have echoed := parallel.frame_echoed listed found copyFound
  obtain ⟨⟨block, member, kind, starts⟩, tagged⟩ := isContext
  have here : frame.context = ⟨block.start⟩ := congrArg Context.mk starts.symm
  rw [echoed.context, here]
  exact (parallel.objects block member kind).chain (starts ▸ tagged)

/-- Frames that stand for each other are innermost at the same time. -/
theorem innermost_iff : copyFrame.context.saves image.memory = Machine.frameAddress other ↔
    frame.context.saves machine.memory = Machine.frameAddress number := by
  obtain ⟨chain, inLinks, chained, copyChained⟩ := parallel.chains listed found copyFound isContext
  cases chain with
  | nil =>
      have ends : frame.context.saves machine.memory = 0 := chained
      have copyEnds : copyFrame.context.saves image.memory = 0 := copyChained
      rw [ends, copyEnds]
      exact iff_of_false (Machine.frameAddress_ne_zero other).symm (Machine.frameAddress_ne_zero number).symm
  | cons link chain =>
      rw [chained.1, copyChained.1, Machine.frameAddress_inj, Machine.frameAddress_inj]
      rcases parallel.eq_or_apart (inLinks List.mem_cons_self) listed with rfl | ⟨first, second⟩
      · exact iff_of_true rfl rfl
      · exact iff_of_false second first

/-- Heaps stay parallel when something becomes of frames that are linked, as long as chains run alongside. -/
theorem reframes (alters : heap.Alters (heap.RefersToObject tiling) tiling machine final)
    (copyAlters : copy.Alters (copy.RefersToObject copied) copied image copyFinal)
    (words : final.memory = machine.memory ∨ ∃ link, final.memory = frame.context.setSaves machine.memory link)
    (copyWords : copyFinal.memory = image.memory ∨
      ∃ link, copyFinal.memory = copyFrame.context.setSaves image.memory link)
    (reframed : machine.Reframed final number replacement)
    (copyReframed : image.Reframed copyFinal other copyReplacement)
    (linking : heap.Linking copy more final copyFinal) (linked : ∀ link ∈ links, link.1 ≠ number → link ∈ more)
    (chains : ∃ chain : List (Nat × Nat), chain ⊆ more ∧
      final.Chained frame.context (frame.context.saves final.memory) (chain.map Prod.fst) ∧
        copyFinal.Chained copyFrame.context (copyFrame.context.saves copyFinal.memory) (chain.map Prod.snd)) :
    heap.Parallel copy more tiling copied final copyFinal := by
  have tiled := parallel.upheld.tiled
  have echoed := parallel.frame_echoed listed found copyFound
  obtain ⟨⟨block, member, kind, starts⟩, tagged⟩ := isContext
  rw [← starts] at tagged
  have size := tiled.size_of_context member kind tagged
  have bounds := tiled.bounds member
  have copyBounds := parallel.copyUpheld.tiled.bounds (parallel.mirrors.member member kind)
  have here : frame.context = ⟨block.start⟩ := congrArg Context.mk starts.symm
  have copyHere : copyFrame.context = ⟨heap.place copy block.start⟩ := by rw [echoed.context, starts]
  rw [here] at words chains
  rw [copyHere] at copyWords chains
  have outside {before after : Memory} {start : Nat} (aligned : start % 16 = 0)
      (words : after = before ∨ ∃ link, after = (Context.mk start).setSaves before link) (address : Nat)
      (clear : ¬ (start + Layout.Context.saves ≤ address ∧ address < start + Layout.Context.saves + 8)) :
      after.read address = before.read address := by
    rcases words with same | ⟨link, same⟩
    · rw [same]
    · rw [same, Context.setSaves, Memory.read_write_ne]
      simp only [Layout.Context.saves] at clear ⊢
      omega
  have within {start address : Nat}
      (link : start + Layout.Context.saves ≤ address ∧ address < start + Layout.Context.saves + 8) :
      start ≤ address ∧ address < start + block.size := by
    simp only [Layout.Context.saves] at link
    omega
  have still {machine final : Machine} {number later : Nat} {frame laterFrame : Frame} {replacement : Option Frame}
      (reframed : machine.Reframed final number replacement) (found : machine.frame? number = some frame)
      (laterFound : machine.frame? later = some laterFrame) (foreign : laterFrame.context ≠ frame.context) :
      final.frame? later = some laterFrame := by
    refine (reframed.others later fun same => foreign ?_).trans laterFound
    subst same
    exact congrArg Frame.context (Option.some.inj (laterFound.symm.trans found))
  refine parallel.amend member kind alters.toUpholds copyAlters.toUpholds linking
    (fun address clear => outside bounds.2.1 words address fun link => clear (within link))
    (fun address clear => outside copyBounds.2.1 copyWords address fun link => clear (within link))
    (fun later laterFrame laterFound foreign => still reframed found laterFound (here ▸ foreign))
    (fun later laterFrame laterFound foreign => still copyReframed copyFound laterFound (copyHere ▸ foreign))
    (fun link inLinks laterFrame laterFound foreign => linked link inLinks fun same => foreign ?_) ?_
  · rw [same] at laterFound
    rw [Option.some.inj (laterFound.symm.trans found), here]
  · exact (parallel.objects block member kind).rechain (.of_slabs rfl rfl) (tiled.contains member) kind
      (parallel.upheld.fits member) bounds.2.2.1 (fun _ _ => id)
      (fun address _ clear => outside bounds.2.1 words address (clear tagged))
      (fun address _ clear => outside copyBounds.2.1 copyWords address (clear tagged)) fun _ => chains

end Frames

end Parallel

end Heap

end SlabHeap
