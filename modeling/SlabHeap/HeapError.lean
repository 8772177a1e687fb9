namespace SlabHeap

/-! The refusals of a heap: what a caller is told when a request cannot be met. The heap stays
usable after each of them. -/

/-- Why settings are not accepted. -/
inductive SettingsError where
  | initialSizeTooSmall
  | maxSizeBelowInitialSize
  | growRatioOutOfRange
  | preservedTagReserved
  | initialSizeTooLarge
  deriving DecidableEq, Repr

def SettingsError.message : SettingsError → String
  | .initialSizeTooSmall => "initial_size too small for a slab"
  | .maxSizeBelowInitialSize => "max_size must be 0 or at least initial_size"
  | .growRatioOutOfRange => "grow_ratio must be between 0.0 and 1.0"
  | .preservedTagReserved => "preserve_tag 0 is never a valid tag"
  | .initialSizeTooLarge => "initial_size too large"

/-- Why a heap refuses a request. -/
inductive HeapError where
  /-- Nothing fits, even after one collection and at most one growth. -/
  | outOfMemory (requested : Nat)
  /-- No address range is left for a slab. -/
  | reservation (size : Nat)
  | invalidSettings (reason : SettingsError)
  /-- Only a heap of one slab can be duplicated. -/
  | nonContiguousHeap
  | notAContext
  | destinationTooSmall (required available : Nat)
  | sameHeap
  | alreadyInitialized
  | notInitialized
  deriving DecidableEq, Repr

def HeapError.message : HeapError → String
  | .outOfMemory requested => s!"out of memory: could not allocate {requested} bytes"
  | .reservation size => s!"failed to reserve {size} bytes for a heap slab"
  | .invalidSettings reason => s!"invalid heap settings: {reason.message}"
  | .nonContiguousHeap => "can't copy a non-contiguous heap"
  | .notAContext => "value is not a context of the expected heap"
  | .destinationTooSmall required available =>
      s!"destination context too small: need {required} bytes, have {available}"
  | .sameHeap => "source and destination are the same heap"
  | .alreadyInitialized => "global heap already initialized"
  | .notInitialized => "global heap not initialized"

end SlabHeap
