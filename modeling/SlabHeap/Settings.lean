import SlabHeap.HeapError
import SlabHeap.Text.Shortest

namespace SlabHeap

/-! How a heap is configured: its first slab, its limit, and when it grows. -/

/-- How the two reasons to grow combine. After a collection a heap is *fragmented* if no run of
storage freed by it can hold the request, and *crowded* if too much of it is in use. -/
inductive GrowPolicy where
  | either
  | both
  deriving DecidableEq, Repr

namespace GrowPolicy

def combine (policy : GrowPolicy) (fragmented crowded : Bool) : Bool :=
  match policy with
  | .either => fragmented || crowded
  | .both => fragmented && crowded

def describe : GrowPolicy → String
  | .either => "Either"
  | .both => "Both"

end GrowPolicy

/-- The smallest size of a slab in bytes. -/
def minSlabSize : Nat := 64

structure Settings where
  /-- The bytes of the first slab. -/
  initialSize : Nat := 2097152
  /-- The most that all slabs may take together; 0 stands for no limit. -/
  maxSize : Nat := 0
  /-- The share of the heap above which the bytes in use make it crowded. -/
  growRatio : Float := 0.75
  growPolicy : GrowPolicy := .either
  /-- The only tag that words of a snapshot keep alive, if there is one. -/
  preserveTag : Option UInt8 := none

namespace Settings

/-- The first thing that is wrong with the settings, if anything is. -/
def check (settings : Settings) : Except SettingsError Unit :=
  if settings.initialSize < minSlabSize then .error .initialSizeTooSmall
  else if settings.maxSize ≠ 0 ∧ settings.maxSize < settings.initialSize then
    .error .maxSizeBelowInitialSize
  else if ¬ (0.0 ≤ settings.growRatio ∧ settings.growRatio ≤ 1.0) then
    .error .growRatioOutOfRange
  else if settings.preserveTag = some 0 then .error .preservedTagReserved
  else .ok ()

/-- The text that shows settings to a developer. -/
def describe (settings : Settings) : String :=
  let preserved :=
    match settings.preserveTag with
    | none => "None"
    | some tag => s!"Some({tag})"
  let ratio := Text.shortestFloat settings.growRatio
  s!"HeapSettings \x7b initial_size: {settings.initialSize}, max_size: {settings.maxSize}, " ++
    s!"grow_ratio: {ratio}, grow_policy: {settings.growPolicy.describe}, " ++
    s!"preserve_tag: {preserved} \x7d"

end Settings

end SlabHeap
