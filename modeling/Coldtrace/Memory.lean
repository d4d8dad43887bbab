import Mathlib.Logic.Function.Basic
import Mathlib.Tactic.Common
import Coldtrace.Calls

/-!
# Atomic accesses

Threads make atomic accesses to memory.  The accesses are numbered from 1, and a
byte of memory holds the number of the access that wrote it last, 0 at first.
An access takes effect inside its call.

The subscribers lock the area of the address of an access, and look at no other
byte of it.  An access that is naturally aligned and of at most 16 bytes does not
leave its block of 64 bytes, so all its bytes share the area of its address.  Other
accesses can have bytes in two blocks, and then the area of one of them is not
locked.  A byte is `Guarded` if all accesses to it lock its area.

`Access` is what is known of an access: the indexes that its two subscribers took,
when it took effect, and for each byte that it read the number of the access
that wrote it.  A fence is an access to no byte.  `replayed` is what a replay of
entries leaves in a byte.
-/

namespace Coldtrace

/-! ## Bytes -/

/-- The bytes from `addr` on. -/
def bytes (addr size : UInt64) : List UInt64 :=
  (List.range size.toNat).map fun i => addr + UInt64.ofNat i

namespace Call

def bytes : Call → List UInt64
  | .aread addr size | .awrite addr size | .rmw addr size | .xchg addr size | .cmpxchg addr size =>
      Coldtrace.bytes addr size
  | _ => []

/-- The access is of 1, 2, 4, 8 or 16 bytes, and its address a multiple of that. -/
def aligned : Call → Bool
  | .aread addr size | .awrite addr size | .rmw addr size | .xchg addr size | .cmpxchg addr size =>
      [1, 2, 4, 8, 16].contains size.toNat && addr.toNat % size.toNat == 0
  | _ => true

/-- The access reads its bytes. -/
def reads : Call → Bool
  | .aread .. | .rmw .. | .xchg .. | .cmpxchg .. => true
  | _ => false

/-- The access writes its bytes. -/
def writes : Call → Result → Bool
  | .awrite .., _ | .rmw .., _ | .xchg .., _ => true
  | .cmpxchg .., r => r.ok
  | _, _ => false

/-- The area of an access. -/
def area (c : Call) : Fin 128 := getArea (c.slot.getD 0)

end Call

/-! ## Memory -/

/-- An atomic access. -/
structure Access where
  tid : Nat := 0
  call : Call := .fence 0
  /-- The index that the first subscriber took. -/
  first : Nat := 0
  /-- The next index when the second subscriber ran. -/
  second : Nat := 0
  result : Result := {}
  /-- How many accesses took effect before. -/
  time : Nat := 0
  seen : List Nat := []
  finished : Bool := false
deriving DecidableEq, Repr

structure Memory where
  cell : UInt64 → Nat := fun _ => 0
  /-- How many accesses took effect. -/
  clock : Nat := 0
  /-- The number of the next access. -/
  next : Nat := 1
  access : Nat → Access := fun _ => {}
  /-- The number of the last access of a thread. -/
  current : Nat → Nat := fun _ => 0
  /-- The entries, each with the number of its access. -/
  history : List (Nat × Logged) := []

namespace Memory

def enter (e : Memory) (t : Tracer) (tid : Nat) (c : Call) : Memory :=
  { e with
    next := e.next + 1,
    access := Function.update e.access e.next { tid := tid, call := c, first := t.nextAtomicIndex },
    current := Function.update e.current tid e.next }

/-- The access takes effect. -/
def returns (e : Memory) (tid : Nat) (c : Call) (r : Result) : Memory :=
  let n := e.current tid
  { e with
    cell := fun b => if c.writes r && c.bytes.contains b then n else e.cell b,
    clock := e.clock + 1,
    access := Function.update e.access n
      { e.access n with
        result := r, time := e.clock, seen := if c.reads then c.bytes.map e.cell else [] } }

def leave (e : Memory) (t t' : Tracer) (tid : Nat) : Memory :=
  let n := e.current tid
  { e with
    access := Function.update e.access n
      { e.access n with second := t.nextAtomicIndex, finished := true },
    history := e.history ++ (t.appended t').map fun r => (n, r) }

/-- Every access that has the byte locks its area. -/
def Guarded (e : Memory) (b : UInt64) : Prop :=
  ∀ n < e.next, b ∈ (e.access n).call.bytes → getArea b = (e.access n).call.area

end Memory

/-- The calls that use an area. -/
def atomicAccesses : Runtime Memory Empty where
  calls c := c.slot.isSome
  events _ := false
  enter e t _ tid c := some (e.enter t tid c)
  inner _ _ _ k := k.elim
  returns e tid c r := some (e.returns tid c r)
  leave e t t' tid _ _ := e.leave t t' tid
  occurs _ _ _ _ _ := none

/-- What a byte holds after a replay of the entries. -/
def replayed (es : List (Nat × Logged)) (b : UInt64) : Nat :=
  es.foldl
    (fun n x =>
      if x.2.type = .atomicWrite ∧ b ∈ bytes x.2.ptr x.2.size then x.1 else n)
    0

/-! ## Areas of accesses -/

section

variable {c : Call} {t t' : Tracer} {md : Nat} {ok : Nat → Bool} {addr size b : UInt64}

theorem Call.area_of_slot (h : c.slot = some addr) : c.area = getArea addr := by
  rw [Call.area, h]
  rfl

theorem before_area (hc : c.slot.isSome = true) (h : t.before md ok c = some t') :
    Fetched t c.area t' := by
  obtain ⟨addr, hslot⟩ := Option.isSome_iff_exists.mp hc
  rw [before_slot hslot] at h
  rw [Call.area_of_slot hslot]
  exact fetchStackAcq_spec h

theorem after_area (hc : c.slot.isSome = true) (t : Tracer) (md : Nat) (ok : Nat → Bool)
    (res : Result) :
    ∃ es, es <+: c.entries md (t.areas c.area).idxA t.nextAtomicIndex res ∧
      ((∀ k, ok k = true) → es = c.entries md (t.areas c.area).idxA t.nextAtomicIndex res) ∧
      Released t c.area (if c.second res then 1 else 0) es (t.after md ok c res) := by
  obtain ⟨addr, hslot⟩ := Option.isSome_iff_exists.mp hc
  rw [Call.area_of_slot hslot]
  exact after_slot hslot t md ok res

/-- An aligned access stays in its block. -/
theorem shiftRight_of_mem_bytes (hsize : [1, 2, 4, 8, 16].contains size.toNat = true)
    (haddr : addr.toNat % size.toNat = 0) (hb : b ∈ bytes addr size) : b >>> 6 = addr >>> 6 := by
  obtain ⟨i, hi, rfl⟩ := List.mem_map.mp hb
  rw [List.mem_range] at hi
  have hlt := addr.toNat_lt
  apply UInt64.toNat_inj.mp
  rw [UInt64.toNat_shiftRight, UInt64.toNat_shiftRight, UInt64.toNat_add, UInt64.toNat_ofNat']
  simp only [List.contains_iff_mem, List.mem_cons, List.not_mem_nil, or_false] at hsize
  simp only [Nat.shiftRight_eq_div_pow]
  change (addr.toNat + i % 2 ^ 64) % 2 ^ 64 / 2 ^ 6 = addr.toNat / 2 ^ 6
  rcases hsize with h | h | h | h | h <;> rw [h] at hi haddr <;> omega

theorem Call.area_of_mem_bytes (hc : c.aligned = true) (hb : b ∈ c.bytes) : getArea b = c.area := by
  have hblock : ∀ {addr size}, ([1, 2, 4, 8, 16].contains size.toNat &&
      addr.toNat % size.toNat == 0) = true → b ∈ Coldtrace.bytes addr size →
      getArea b = getArea addr := by
    intro addr size hal hmem
    rw [Bool.and_eq_true, beq_iff_eq] at hal
    rw [getArea, getArea, shiftRight_of_mem_bytes hal.1 hal.2 hmem]
  cases c with
  | aread | awrite | rmw | xchg | cmpxchg => exact hblock hc hb
  | _ => cases hb

/-- Where all accesses are aligned, they lock the areas of all their bytes. -/
theorem Memory.guarded_of_aligned {e : Memory} (h : ∀ n < e.next, (e.access n).call.aligned = true)
    (b : UInt64) : e.Guarded b := fun n hn hb => Call.area_of_mem_bytes (h n hn) hb

/-- A byte that later accesses leave guarded was guarded before. -/
theorem Memory.Guarded.of_later {e e' : Memory} (h : e'.Guarded b) (hnext : e.next ≤ e'.next)
    (hcall : ∀ n < e.next, (e'.access n).call = (e.access n).call) : e.Guarded b := by
  intro n hn
  rw [← hcall n hn]
  exact h n (Nat.lt_of_lt_of_le hn hnext)

/-- The entries of an access are about its bytes. -/
theorem Call.bytes_of_mem_entries {idxA idxB : Nat} {res : Result} {e : Logged}
    (he : e ∈ c.entries md idxA idxB res) (hc : c.slot.isSome = true) :
    getArea e.ptr = c.area ∧ Coldtrace.bytes e.ptr e.size = c.bytes := by
  obtain ⟨addr, hslot⟩ := Option.isSome_iff_exists.mp hc
  have hptr := ((Call.entries_index hslot md idxA idxB res).2 e he).2.2
  refine ⟨by rw [hptr, Call.area_of_slot hslot], ?_⟩
  cases c with
  | aread | awrite | fence =>
      simp only [Call.entries, List.mem_singleton] at he
      rw [he]
      rfl
  | rmw | xchg =>
      simp only [Call.entries, List.mem_cons, List.not_mem_nil, or_false] at he
      rcases he with rfl | rfl <;> rfl
  | cmpxchg =>
      cases hr : res.ok <;>
        simp only [Call.entries, hr, Bool.false_eq_true, if_true, if_false, List.mem_cons,
          List.not_mem_nil, or_false] at he
      · rw [he]
        rfl
      · rcases he with rfl | rfl <;> rfl
  | _ => cases hslot

/-- A read is the first entry of its access. -/
theorem Call.read_of_entries {idxA idxB : Nat} {res : Result} {e : Logged} {pre post : List Logged}
    (h : c.entries md idxA idxB res = pre ++ e :: post) (he : e.type = .atomicRead) :
    pre = [] ∧ c.reads = true := by
  cases pre with
  | nil =>
      refine ⟨rfl, ?_⟩
      cases c with
      | aread | rmw | xchg | cmpxchg => rfl
      | awrite | fence =>
          simp only [Call.entries, List.nil_append, List.cons.injEq] at h
          rw [← h.1] at he
          cases he
      | _ => cases h
  | cons x pre =>
      -- a second entry is a write
      cases c with
      | rmw | xchg =>
          cases pre with
          | nil =>
              simp only [Call.entries, List.cons_append, List.nil_append, List.cons.injEq] at h
              rw [← h.2.1] at he
              cases he
          | cons => simp [Call.entries] at h
      | cmpxchg =>
          cases hr : res.ok with
          | false => simp [Call.entries, hr] at h
          | true =>
              cases pre with
              | nil =>
                  simp only [Call.entries, hr, if_true, List.cons_append, List.nil_append,
                    List.cons.injEq] at h
                  rw [← h.2.1] at he
                  cases he
              | cons => simp [Call.entries, hr] at h
      | _ => simp [Call.entries] at h

end

/-! ## Replays -/

theorem replayed_append (es es' : List (Nat × Logged)) (b : UInt64) :
    replayed (es ++ es') b = es'.foldl
      (fun n x =>
        if x.2.type = .atomicWrite ∧ b ∈ bytes x.2.ptr x.2.size then x.1 else n)
      (replayed es b) := by
  rw [replayed, List.foldl_append, ← replayed]

/-- The entries of an access leave its number in the bytes that it writes. -/
theorem replayed_entries {c : Call} (md idxA idxB n : Nat) (r : Result) (es : List (Nat × Logged))
    (b : UInt64) :
    replayed (es ++ (c.entries md idxA idxB r).map fun e => (n, e)) b =
      if c.writes r && c.bytes.contains b then n else replayed es b := by
  rw [replayed_append]
  cases c with
  | cmpxchg => cases hr : r.ok <;> simp [Call.entries, Call.writes, Call.bytes, hr]
  | _ => simp [Call.entries, Call.writes, Call.bytes]

/-- A replay of the entries that write a byte is enough for the byte. -/
theorem replayed_filter {p : Nat × Logged → Bool} {es : List (Nat × Logged)} {b : UInt64}
    (h : ∀ x ∈ es, b ∈ bytes x.2.ptr x.2.size → p x = true) :
    replayed (es.filter p) b = replayed es b := by
  induction es using List.reverseRecOn with
  | nil => rfl
  | append_singleton es x ih =>
      have ih := ih fun y hy => h y (List.mem_append_left _ hy)
      have hx := h x (List.mem_append_right _ (List.mem_singleton.mpr rfl))
      rw [List.filter_append, replayed_append, replayed_append, ih]
      cases hp : p x with
      | true => simp [hp]
      | false =>
          have hb : b ∉ bytes x.2.ptr x.2.size := fun hb => by simp [hx hb] at hp
          simp [hp, hb]

end Coldtrace
