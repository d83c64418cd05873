/-
# `Rtlog.ThreadId` — a thread's id, read from its descriptor

`pthread_gettid_np.cpp` and its header.  The id of a thread is a field of an
opaque structure, and its offset is found by a search: on one thread, whose id
is known from a system call, the structure is read as a four-byte integer at
every byte offset from 0 on, until what is read is the id.  The offset is then
used on every thread.

The search has no bound.  It ends because the id is somewhere in the structure:
`search_finds` is that with every bound written out, an instance of the
variant rule of loops.  What it finds is the *least* offset, and whether that
is the offset of the field is another question.  Bytes in front of the field
may read as the id as well, on the one thread that was searched
(`gettid_iff`).
-/
import Rtlog.Base.Loop

namespace Rtlog

/-! ## Descriptors -/

/-- The structure behind a `pthread_t`: its bytes.  Its size is a `size_t`. -/
structure Descriptor where
  bytes : List (BitVec 8)
  size_lt : bytes.length < 2 ^ 64

/-- `*(pid_t*)(threadmem + offset)`, little-endian; `none` if the four bytes are
not all inside the structure. -/
def Descriptor.readPid (threadmem : Descriptor) (offset : Nat) : Option (BitVec 32) :=
  match threadmem.bytes.drop offset with
  | b₀ :: b₁ :: b₂ :: b₃ :: _ => some (b₃ ++ b₂ ++ b₁ ++ b₀)
  | _ => none

/-! ## The search -/

/-- Where the loop is, and the bytes it has read. -/
structure Search where
  offset : UInt64
  reads : List Nat

/-- How the loop ends: at the `break`, when `++offset` is zero, or with a read
that is not inside the structure. -/
inductive SearchExit where
  | found (offset : UInt64)
  | wrapped
  | outside
  deriving DecidableEq, Repr

/-- The loop of `__find_thread_id_offset_thread`, on a thread with id `tid`. -/
def findThreadIdOffsetThread (threadmem : Descriptor) (tid : BitVec 32) :
    Loop Search (SearchExit × List Nat) where
  turn s :=
    let reads := s.reads ++ List.range' s.offset.toNat 4
    match threadmem.readPid s.offset.toNat with
    | none => .inr (.outside, reads)
    | some pid =>
        if pid = tid then .inr (.found s.offset, reads)
        else if s.offset + 1 = 0 then .inr (.wrapped, reads)
        else .inl ⟨s.offset + 1, reads⟩

/-- `pthread_gettid_np`, on the thread with this descriptor. -/
def pthreadGettidNp (threadIdOffset : UInt64) (self : Descriptor) : Option (BitVec 32) :=
  self.readPid threadIdOffset.toNat

/-! ## Reading -/

theorem Descriptor.readPid_isSome {d : Descriptor} {offset : Nat} :
    (d.readPid offset).isSome = true ↔ offset + 4 ≤ d.bytes.length := by
  have hlen : (d.bytes.drop offset).length = d.bytes.length - offset := List.length_drop
  unfold readPid
  split
  · next b₀ b₁ b₂ b₃ rest h =>
      rw [h] at hlen
      simp only [List.length_cons] at hlen
      simp only [Option.isSome_some, true_iff]
      omega
  · next h =>
      simp only [Option.isSome_none, Bool.false_eq_true, false_iff]
      intro hroom
      match hd : d.bytes.drop offset with
      | b₀ :: b₁ :: b₂ :: b₃ :: rest => exact h b₀ b₁ b₂ b₃ rest hd
      | [] | [_] | [_, _] | [_, _, _] =>
          rw [hd] at hlen
          simp only [List.length_cons, List.length_nil] at hlen
          omega

theorem Descriptor.lt_of_readPid {d : Descriptor} {offset : Nat} {pid : BitVec 32}
    (h : d.readPid offset = some pid) : offset + 4 ≤ d.bytes.length :=
  readPid_isSome.mp (by rw [h]; rfl)

/-- The first of the four bytes is the low one. -/
theorem Descriptor.getElem?_of_readPid {d : Descriptor} {offset : Nat} {pid : BitVec 32}
    (h : d.readPid offset = some pid) : d.bytes[offset]? = some (pid.setWidth 8) := by
  have hhead : d.bytes[offset]? = (d.bytes.drop offset).head? := List.head?_drop.symm
  unfold readPid at h
  split at h
  · next b₀ b₁ b₂ b₃ rest hd =>
      cases h
      rw [hhead, hd, List.head?_cons, BitVec.setWidth_append]
      simp
  · cases h

/-! ## The search finds the least offset -/

section Search

variable {d : Descriptor} {tid : BitVec 32} {k : Nat}

/-- The search has not passed offset `k`, has found nothing, and has read
nothing behind the four bytes at `k`. -/
structure Searching (d : Descriptor) (tid : BitVec 32) (k : Nat) (s : Search) : Prop where
  le : s.offset.toNat ≤ k
  before : ∀ j < s.offset.toNat, d.readPid j ≠ some tid
  reads : ∀ b ∈ s.reads, b < k + 4

/-- The search has ended at the first offset that reads as the id, at `k` or in
front of it. -/
structure Found (d : Descriptor) (tid : BitVec 32) (k : Nat) (offset : UInt64)
    (reads : List Nat) : Prop where
  le : offset.toNat ≤ k
  eq : d.readPid offset.toNat = some tid
  least : ∀ j < offset.toNat, d.readPid j ≠ some tid
  reads : ∀ b ∈ reads, b < k + 4

/-- One turn, from an offset that is not behind `k`. -/
theorem Searching.turn (hk : d.readPid k = some tid) {s : Search} (hs : Searching d tid k s) :
    (∃ s', (findThreadIdOffsetThread d tid).turn s = .inl s' ∧ Searching d tid k s' ∧
      k - s'.offset.toNat < k - s.offset.toNat) ∨
    ∃ r, (findThreadIdOffsetThread d tid).turn s = .inr r ∧
      ∃ offset, r.1 = .found offset ∧ Found d tid k offset r.2 := by
  have hroom := Descriptor.lt_of_readPid hk
  have hle := hs.le
  obtain ⟨pid, hpid⟩ := Option.isSome_iff_exists.mp
    (Descriptor.readPid_isSome.mpr (show s.offset.toNat + 4 ≤ d.bytes.length by omega))
  have hreads : ∀ b ∈ s.reads ++ List.range' s.offset.toNat 4, b < k + 4 := by
    intro b hb
    rcases List.mem_append.mp hb with hb | hb
    · exact hs.reads b hb
    · rw [List.mem_range'_1] at hb
      omega
  by_cases heq : pid = tid
  · subst heq
    refine .inr ⟨(.found s.offset, _), ?_, s.offset, rfl, hle, hpid, hs.before, hreads⟩
    simp only [findThreadIdOffsetThread, hpid, if_true]
  · have hlt : s.offset.toNat < k := by
      refine lt_of_le_of_ne hle ?_
      intro hoff
      rw [hoff, hk] at hpid
      exact heq (Option.some.inj hpid).symm
    -- `k` is inside the structure, so the counter does not wrap here
    have hnext : (s.offset + 1).toNat = s.offset.toNat + 1 := by
      have hsize := d.size_lt
      rw [UInt64.toNat_add, UInt64.toNat_one]
      exact Nat.mod_eq_of_lt (by omega)
    have hne : s.offset + 1 ≠ 0 := by
      intro h
      rw [h] at hnext
      cases hnext
    refine .inl ⟨⟨s.offset + 1, s.reads ++ List.range' s.offset.toNat 4⟩, ?_, ?_, ?_⟩
    · simp only [findThreadIdOffsetThread, hpid, if_neg heq, if_neg hne]
    · refine ⟨?_, ?_, hreads⟩
      · show (s.offset + 1).toNat ≤ k
        omega
      · show ∀ j < (s.offset + 1).toNat, d.readPid j ≠ some tid
        rw [hnext]
        intro j hj
        rcases Nat.lt_succ_iff_lt_or_eq.mp hj with hj | rfl
        · exact hs.before j hj
        · rw [hpid]
          intro h
          exact heq (Option.some.inj h)
    · show k - (s.offset + 1).toNat < k - s.offset.toNat
      omega

/-- Before its first turn. -/
def Search.start : Search := ⟨0, []⟩

theorem Searching.start (d : Descriptor) (tid : BitVec 32) (k : Nat) :
    Searching d tid k .start where
  le := Nat.zero_le _
  before j hj := absurd hj (Nat.not_lt_zero j)
  reads _ hb := absurd hb List.not_mem_nil

/-- Within `k + 1` turns the search leaves at the `break`, with the least offset
that reads as the id, and has read nothing behind the id at `k`. -/
theorem exists_found (hk : d.readPid k = some tid) :
    ∃ offset reads, (∀ turns, k + 1 ≤ turns →
        (findThreadIdOffsetThread d tid).run turns .start = some (.found offset, reads)) ∧
      Found d tid k offset reads := by
  obtain ⟨⟨exit, reads⟩, hrun, offset, rfl, hfound⟩ :=
    Loop.run_of_variant (L := findThreadIdOffsetThread d tid) (fun s => k - s.offset.toNat)
      (fun _ hs => hs.turn hk) (Searching.start d tid k)
  refine ⟨offset, reads, ?_, hfound⟩
  intro turns hturns
  exact Loop.run_of_le hrun hturns

/-- The offset that is found is the field's, unless bytes in front of it read as
the id. -/
theorem Found.toNat_eq_iff {offset : UInt64} {reads : List Nat}
    (h : Found d tid k offset reads) :
    offset.toNat = k ↔ ∀ j < k, d.readPid j ≠ some tid := by
  constructor
  · rintro rfl
    exact h.least
  · intro hnone
    refine le_antisymm h.le (Nat.le_of_not_lt ?_)
    intro hlt
    exact hnone _ hlt h.eq

end Search

/-! ## On another thread -/

/-- A descriptor with the id 2 at offset `k`, and nothing but ones before. -/
def onesBefore (k : Nat) (h : k + 4 < 2 ^ 64) : Descriptor where
  bytes := List.replicate k 1 ++ [2, 0, 0, 0]
  size_lt := by simpa using h

theorem readPid_onesBefore {k : Nat} (h : k + 4 < 2 ^ 64) :
    (onesBefore k h).readPid k = some 2 := by
  have hdrop : (onesBefore k h).bytes.drop k = [2, 0, 0, 0] :=
    List.drop_left' List.length_replicate
  rw [Descriptor.readPid, hdrop]
  rfl

/-- In front of it nothing reads as 2. -/
theorem readPid_onesBefore_ne {k : Nat} (h : k + 4 < 2 ^ 64) {j : Nat} (hj : j < k) :
    (onesBefore k h).readPid j ≠ some 2 := by
  intro hread
  have hbyte := Descriptor.getElem?_of_readPid hread
  have hone : (onesBefore k h).bytes[j]? = some 1 := by
    show (List.replicate k (1 : BitVec 8) ++ [2, 0, 0, 0])[j]? = some 1
    rw [List.getElem?_append_left (by rwa [List.length_replicate]), List.getElem?_replicate,
      if_pos hj]
  rw [hone] at hbyte
  exact absurd (Option.some.inj hbyte) (by decide)

/-- The search ends inside the structure: it leaves at the `break` within
`k + 1` turns, with the least offset that reads as the id, and has read no byte
behind the id at `k`. -/
theorem search_finds (d : Descriptor) (tid : BitVec 32) (k : Nat)
    (hk : d.readPid k = some tid) :
    ∃ offset reads, (∀ turns, k + 1 ≤ turns →
        (findThreadIdOffsetThread d tid).run turns .start = some (.found offset, reads)) ∧
      d.readPid offset.toNat = some tid ∧ (∀ j < offset.toNat, d.readPid j ≠ some tid) ∧
      ∀ b ∈ reads, b < k + 4 ∧ b < d.bytes.length := by
  obtain ⟨offset, reads, hrun, hfound⟩ := exists_found hk
  refine ⟨offset, reads, hrun, hfound.eq, hfound.least, ?_⟩
  intro b hb
  have hread := hfound.reads b hb
  have hroom := Descriptor.lt_of_readPid hk
  exact ⟨hread, by omega⟩

/-- A thread whose id, 1, also stands in front of the field at offset 4. -/
def twice : Descriptor where
  bytes := [1, 0, 0, 0, 1, 0, 0, 0]
  size_lt := by decide

theorem search_finds_twice : ∃ offset reads,
    (findThreadIdOffsetThread twice 1).run 5 .start = some (.found offset, reads) ∧
      ∀ b ∈ reads, b < 8 := by
  obtain ⟨offset, reads, hrun, -, -, hreads⟩ := search_finds twice 1 4 rfl
  exact ⟨offset, reads, hrun 5 (Nat.le_refl 5), fun b hb => (hreads b hb).1⟩

/-- With the offset the search has found, `pthread_gettid_np` returns every
thread's own id exactly if, on the thread that was searched, nothing in front of
the field reads as its id. -/
theorem gettid_iff (threadmem : Descriptor) (tid : BitVec 32) (k : Nat)
    (hk : threadmem.readPid k = some tid) :
    ∃ offset reads, (∀ turns, k + 1 ≤ turns →
        (findThreadIdOffsetThread threadmem tid).run turns .start =
          some (.found offset, reads)) ∧
      ((∀ (self : Descriptor) (pid : BitVec 32), self.readPid k = some pid →
          pthreadGettidNp offset self = some pid) ↔
        ∀ j < k, threadmem.readPid j ≠ some tid) := by
  obtain ⟨offset, reads, hrun, hfound⟩ := exists_found hk
  refine ⟨offset, reads, hrun, ?_⟩
  rw [← hfound.toNat_eq_iff]
  constructor
  · intro hall
    refine le_antisymm hfound.le (Nat.le_of_not_lt ?_)
    intro hlt
    have hsize : k + 4 < 2 ^ 64 := lt_of_le_of_lt (Descriptor.lt_of_readPid hk) threadmem.size_lt
    exact readPid_onesBefore_ne hsize hlt (hall _ 2 (readPid_onesBefore hsize))
  · rintro rfl self pid hself
    exact hself

theorem gettid_iff_twice : ∃ offset reads,
    (findThreadIdOffsetThread twice 1).run 5 .start = some (.found offset, reads) ∧
      ¬ ∀ (self : Descriptor) (pid : BitVec 32), self.readPid 4 = some pid →
          pthreadGettidNp offset self = some pid := by
  obtain ⟨offset, reads, hrun, hiff⟩ := gettid_iff twice 1 4 rfl
  refine ⟨offset, reads, hrun 5 (Nat.le_refl 5), ?_⟩
  intro hall
  exact hiff.mp hall 0 (by omega) rfl

theorem not_gettid :
    ¬ ∀ (threadmem self : Descriptor) (tid pid : BitVec 32) (k : Nat),
      threadmem.readPid k = some tid → self.readPid k = some pid →
        ∀ (turns : Nat) (offset : UInt64) (reads : List Nat),
          (findThreadIdOffsetThread threadmem tid).run turns .start =
              some (.found offset, reads) →
            pthreadGettidNp offset self = some pid := by
  intro h
  have hwrong := h twice (onesBefore 4 (by omega)) 1 2 4 rfl rfl 1 0 _ rfl
  exact readPid_onesBefore_ne (k := 4) (by omega) (j := 0) (by omega) hwrong

end Rtlog
