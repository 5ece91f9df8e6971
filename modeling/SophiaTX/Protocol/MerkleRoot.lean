import SophiaTX.Lib.Loop
import SophiaTX.Protocol.Types

/-!
# Merkle roots

`calculate_merkle_root` builds every level of the tree over the one below it, in the same array and
with 32-bit indices. The tree itself is told by its levels: each pairs up the nodes of the one
below, where an odd last node goes up unchanged.
-/

namespace SophiaTX.Protocol

open SophiaTX.Lib

/-- The hash functions of a block's transactions. -/
structure BlockHashes (Trx Digest Checksum : Type) where
  merkleDigest : Trx → Digest
  /-- `digest_type()`. -/
  noDigest : Digest
  /-- `digest_type::hash` of a pair. -/
  hashPair : Digest → Digest → Digest
  /-- `checksum_type()`. -/
  noChecksum : Checksum
  checksum : Digest → Checksum

/-- What may go wrong with an access to the array. -/
inductive ArrayFault where
  | outOfRange
  /-- The element has been written at the same level. -/
  | overwritten
deriving DecidableEq

abbrev ArrayRun := Except (Stop ArrayFault)

namespace BlockHashes

variable {Trx Digest Checksum : Type} (h : BlockHashes Trx Digest Checksum)

/-! ## The loops -/

/-- The array while a level is built, and the positions written so far. -/
structure Level (Digest : Type) where
  ids : List Digest
  written : List ℕ
  i : ℕ
  k : ℕ

def Level.read (l : Level Digest) (j : ℕ) : ArrayRun Digest :=
  if j ∈ l.written then .error (.fault .overwritten)
  else
    match l.ids[j]? with
    | some id => .ok id
    | none => .error (.fault .outOfRange)

def Level.write (l : Level Digest) (j : ℕ) (id : Digest) : ArrayRun (Level Digest) :=
  if j < l.ids.length then .ok { l with ids := l.ids.set j id, written := j :: l.written }
  else .error (.fault .outOfRange)

/-- One turn of the loop that puts the digests of the transactions into the array. -/
def digestTurn (transactions : List Trx) (s : List Digest × ℕ) :
    ArrayRun (Turn (List Digest × ℕ) (List Digest)) :=
  if s.2 < transactions.length then
    match transactions[s.2]? with
    | some trx =>
      if s.2 < s.1.length then .ok (.again (s.1.set s.2 (h.merkleDigest trx), uint32 (s.2 + 1)))
      else .error (.fault .outOfRange)
    | none => .error (.fault .outOfRange)
  else .ok (.done s.1)

/-- One turn of the loop that hashes a level in pairs. -/
def pairTurn (iMax : ℕ) (l : Level Digest) : ArrayRun (Turn (Level Digest) (Level Digest)) :=
  if l.i < iMax then do
    let left ← l.read l.i
    let right ← l.read (uint32 (l.i + 1))
    let l' ← l.write l.k (h.hashPair left right)
    pure (.again { l' with i := uint32 (l.i + 2), k := uint32 (l.k + 1) })
  else pure (.done l)

/-- One turn of the loop over the levels, from an array and the number of hashes in it. -/
def levelTurn (turns : ℕ) (s : List Digest × ℕ) :
    ArrayRun (Turn (List Digest × ℕ) (List Digest)) :=
  if 1 < s.2 then do
    let iMax := uint32 (s.2 - s.2 % 2)
    let l ← loop (h.pairTurn iMax) turns ⟨s.1, [], 0, 0⟩
    if s.2 % 2 = 1 then do
      let last ← l.read iMax
      let l' ← l.write l.k last
      pure (.again (l'.ids, uint32 (l.k + 1)))
    else pure (.again (l.ids, l.k))
  else pure (.done s.1)

/-- `checksum_type::hash( ids[0] )`. -/
def checksumOfFirst (ids : List Digest) : ArrayRun Checksum :=
  match ids[0]? with
  | some id => .ok (h.checksum id)
  | none => .error (.fault .outOfRange)

def calculateMerkleRoot (transactions : List Trx) (turns : ℕ) : ArrayRun Checksum :=
  if transactions.length = 0 then pure h.noChecksum
  else do
    let ids ← loop (h.digestTurn transactions) turns
      (List.replicate transactions.length h.noDigest, 0)
    let ids ← loop (h.levelTurn turns) turns (ids, ids.length)
    h.checksumOfFirst ids

/-! ## The tree -/

/-- The level above a level. -/
def pairUp : List Digest → List Digest
  | left :: right :: ids => h.hashPair left right :: pairUp ids
  | [last] => [last]
  | [] => []

theorem length_pairUp (ids : List Digest) : (h.pairUp ids).length = (ids.length + 1) / 2 := by
  fun_induction pairUp h ids with
  | case1 left right ids ih =>
    rw [List.length_cons, ih, List.length_cons, List.length_cons]
    omega
  | case2 last => simp
  | case3 => simp

/-- The node at the top, if there is a tree at all. -/
def treeTop (ids : List Digest) : Option Digest :=
  if ids.length ≤ 1 then ids.head? else treeTop (h.pairUp ids)
termination_by ids.length
decreasing_by
  rw [length_pairUp]
  omega

def merkleRoot (transactions : List Trx) : Checksum :=
  match h.treeTop (transactions.map h.merkleDigest) with
  | some id => h.checksum id
  | none => h.noChecksum

/-- Pairs can be hashed one run after the other, as long as no run breaks a pair. -/
theorem pairUp_append {ids ids' : List Digest} (heven : ids.length % 2 = 0) :
    h.pairUp (ids ++ ids') = h.pairUp ids ++ h.pairUp ids' := by
  fun_induction pairUp h ids with
  | case1 left right ids ih =>
    have heven' : ids.length % 2 = 0 := by
      rw [List.length_cons, List.length_cons] at heven
      omega
    rw [List.cons_append, List.cons_append, pairUp, ih heven', List.cons_append]
  | case2 last => cases heven
  | case3 => rfl

/-! ## One level -/

section Level

variable {ids : List Digest} {q : ℕ}

/-- The array when `k` pairs of a level have been hashed: the hashes at its front, and behind them
what the level below has there. -/
def paired (ids : List Digest) (k : ℕ) : List Digest := h.pairUp (ids.take (2 * k)) ++ ids.drop k

theorem length_pairUp_take {k : ℕ} (hk : 2 * k ≤ ids.length) :
    (h.pairUp (ids.take (2 * k))).length = k := by
  rw [length_pairUp, List.length_take_of_le hk]
  omega

theorem length_paired {k : ℕ} (hk : 2 * k ≤ ids.length) :
    (h.paired ids k).length = ids.length := by
  rw [paired, List.length_append, length_pairUp_take h hk, List.length_drop]
  omega

/-- Behind the hashes the level below is still there. -/
theorem getElem?_paired {k j : ℕ} (hk : 2 * k ≤ ids.length) (hj : k ≤ j) :
    (h.paired ids k)[j]? = ids[j]? := by
  rw [paired, List.getElem?_append_right (by rwa [length_pairUp_take h hk]),
    length_pairUp_take h hk, List.getElem?_drop, Nat.add_sub_cancel' hj]

theorem take_paired {k : ℕ} (hk : 2 * k ≤ ids.length) :
    (h.paired ids k).take k = h.pairUp (ids.take (2 * k)) := by
  rw [paired, List.take_append_of_le_length (length_pairUp_take h hk).ge,
    List.take_of_length_le (length_pairUp_take h hk).le]

/-- Writing the next hash. -/
theorem set_paired {k : ℕ} (hk : 2 * k ≤ ids.length) (hlt : k < ids.length) (id : Digest) :
    (h.paired ids k).set k id = h.pairUp (ids.take (2 * k)) ++ id :: ids.drop (k + 1) := by
  rw [paired, List.set_append_right _ _ (length_pairUp_take h hk).le, length_pairUp_take h hk,
    Nat.sub_self, List.drop_eq_getElem_cons hlt, List.set_cons_zero]

theorem paired_succ {k : ℕ} (hk : 2 * k + 1 < ids.length) :
    (h.paired ids k).set k (h.hashPair ids[2 * k] ids[2 * k + 1]) = h.paired ids (k + 1) := by
  have htake : ids.take (2 * (k + 1)) = ids.take (2 * k) ++ [ids[2 * k], ids[2 * k + 1]] := by
    have htwo : 2 * (k + 1) = 2 * k + 1 + 1 := by ring
    rw [htwo, List.take_add_one, List.take_add_one, List.getElem?_eq_getElem hk,
      List.getElem?_eq_getElem (Nat.lt_of_succ_lt hk), List.append_assoc]
    rfl
  have heven : (ids.take (2 * k)).length % 2 = 0 := by
    rw [List.length_take_of_le (by omega)]
    omega
  rw [set_paired h (by omega) (by omega), paired, htake, pairUp_append h heven]
  simp [pairUp]

/-- What holds in every turn of the loop over the pairs: the cursor that reads is twice as far as
the one that writes, and only what lies before the latter has been written. -/
structure Pairing (ids : List Digest) (q : ℕ) (l : Level Digest) : Prop where
  k_le : l.k ≤ q
  i_eq : l.i = 2 * l.k
  written : ∀ j ∈ l.written, j < l.k
  ids_eq : l.ids = h.paired ids l.k

variable {h} {l : Level Digest}

theorem Pairing.read (hl : h.Pairing ids q l) (hq : 2 * q ≤ ids.length) {j : ℕ} (hk : l.k ≤ j)
    (hj : j < ids.length) : l.read j = .ok ids[j] := by
  have hfresh : j ∉ l.written := fun hmem ↦ absurd (hl.written j hmem) (Nat.not_lt_of_le hk)
  have hle : 2 * l.k ≤ ids.length := (Nat.mul_le_mul_left 2 hl.k_le).trans hq
  rw [Level.read, if_neg hfresh, hl.ids_eq, getElem?_paired h hle hk, List.getElem?_eq_getElem hj]

theorem Pairing.write (hl : h.Pairing ids q l) (hq : 2 * q ≤ ids.length) (hk : l.k < ids.length)
    (id : Digest) : l.write l.k id = .ok { l with
      ids := (h.paired ids l.k).set l.k id, written := l.k :: l.written } := by
  have hle : 2 * l.k ≤ ids.length := (Nat.mul_le_mul_left 2 hl.k_le).trans hq
  have hlength : l.k < l.ids.length := by rwa [hl.ids_eq, length_paired h hle]
  rw [Level.write, if_pos hlength, hl.ids_eq]

theorem Pairing.next (hl : h.Pairing ids q l) (hlt : l.k < q) :
    h.Pairing ids q ⟨h.paired ids (l.k + 1), l.k :: l.written, 2 * (l.k + 1), l.k + 1⟩ where
  k_le := hlt
  i_eq := rfl
  written := by
    intro j hj
    rcases List.mem_cons.1 hj with rfl | hj
    · exact Nat.lt_succ_self _
    · exact Nat.lt_succ_of_lt (hl.written j hj)
  ids_eq := rfl

theorem Pairing.pairTurn_eq (hl : h.Pairing ids q l) (hq : 2 * q ≤ ids.length)
    (hsize : ids.length < 4294967296) (hlt : l.k < q) :
    h.pairTurn (2 * q) l = .ok (.again
      ⟨h.paired ids (l.k + 1), l.k :: l.written, 2 * (l.k + 1), l.k + 1⟩) := by
  have hi : l.i = 2 * l.k := hl.i_eq
  have hcond : l.i < 2 * q := by omega
  have hleft : l.read l.i = .ok ids[2 * l.k] := by
    rw [hi]
    exact hl.read hq (by omega) (by omega)
  have hright : l.read (uint32 (l.i + 1)) = .ok ids[2 * l.k + 1] := by
    rw [hi, uint32, Nat.mod_eq_of_lt (by omega)]
    exact hl.read hq (by omega) (by omega)
  have hnext : uint32 (l.i + 2) = 2 * (l.k + 1) := by
    rw [hi, uint32, Nat.mod_eq_of_lt (by omega)]
    ring
  have hk : uint32 (l.k + 1) = l.k + 1 := Nat.mod_eq_of_lt (by omega)
  rw [pairTurn, if_pos hcond, hleft, ok_bind, hright, ok_bind, hl.write hq (by omega), ok_bind,
    hnext, hk, paired_succ h (by omega)]
  rfl

/-- The loop over the pairs hashes all of them and reads nothing that it has written. -/
theorem pairs_return (hq : 2 * q ≤ ids.length) (hsize : ids.length < 4294967296) :
    ∃ l, Returns (fun turns ↦ loop (h.pairTurn (2 * q)) turns ⟨ids, [], 0, 0⟩) l ∧
      h.Pairing ids q l ∧ l.k = q := by
  apply Returns.loop (I := h.Pairing ids q) (fun l ↦ q - l.k)
  · intro l hl
    rcases hl.k_le.lt_or_eq with hlt | heq
    · left
      apply Exists.intro
      apply And.intro (Returns.of_eq fun _ ↦ hl.pairTurn_eq hq hsize hlt)
      apply And.intro (hl.next hlt)
      apply Nat.sub_lt_sub_left hlt
      exact Nat.lt_succ_self _
    · right
      refine ⟨l, Returns.of_eq fun turns ↦ ?_, hl, heq⟩
      have hdone : ¬ l.i < 2 * q := by
        rw [hl.i_eq, heq]
        exact lt_irrefl _
      rw [pairTurn, if_neg hdone]
      rfl
  · exact ⟨Nat.zero_le q, rfl, fun j hj ↦ absurd hj List.not_mem_nil, by simp [paired, pairUp]⟩

theorem take_set_paired (hq : 2 * q + 1 ≤ ids.length) (hpos : 0 < q) :
    ((h.paired ids q).set q ids[2 * q]).take (q + 1) = h.pairUp (ids.take (2 * q + 1)) := by
  have hlength : (h.pairUp (ids.take (2 * q))).length = q := length_pairUp_take h (by omega)
  have heven : (ids.take (2 * q)).length % 2 = 0 := by
    rw [List.length_take_of_le (by omega)]
    omega
  rw [set_paired h (by omega) (by omega), List.take_add_one,
    List.take_append_of_le_length hlength.ge, List.take_of_length_le hlength.le,
    List.getElem?_append_right hlength.le, hlength, Nat.sub_self,
    List.take_add_one, List.getElem?_eq_getElem hq, pairUp_append h heven]
  rfl

/-- A turn of the loop over the levels puts the next level at the front of the array. -/
theorem levelTurn_returns {current : ℕ} (hcurrent : 1 < current) (hle : current ≤ ids.length)
    (hsize : ids.length < 4294967296) :
    ∃ ids', Returns (fun turns ↦ h.levelTurn turns (ids, current))
        (.again (ids', (current + 1) / 2)) ∧
      ids'.length = ids.length ∧ ids'.take ((current + 1) / 2) = h.pairUp (ids.take current) := by
  have hiMax : uint32 (current - current % 2) = 2 * (current / 2) := by
    rw [uint32, Nat.mod_eq_of_lt (by omega)]
    omega
  have hq : 2 * (current / 2) ≤ ids.length := (Nat.mul_div_le current 2).trans hle
  obtain ⟨l, hreturns, hl, hk⟩ := pairs_return (h := h) hq hsize
  have hids : l.ids = h.paired ids (current / 2) := hk ▸ hl.ids_eq
  simp only [levelTurn, if_pos hcurrent, hiMax]
  rcases Nat.mod_two_eq_zero_or_one current with heven | hodd
  · have hhalf : (current + 1) / 2 = current / 2 := by omega
    refine ⟨l.ids, ?_, ?_, ?_⟩
    · apply hreturns.bind
      apply Returns.of_eq
      intro turns
      rw [if_neg (by omega), hhalf, hk]
      rfl
    · rw [hids, length_paired h hq]
    · rw [hids, hhalf, take_paired h hq, Nat.mul_div_cancel' (Nat.dvd_of_mod_eq_zero heven)]
  · have hhalf : (current + 1) / 2 = current / 2 + 1 := by omega
    have hcur : 2 * (current / 2) + 1 = current := by omega
    refine ⟨(h.paired ids (current / 2)).set (current / 2) (ids[2 * (current / 2)]), ?_, ?_, ?_⟩
    · apply hreturns.bind
      apply Returns.of_eq
      intro turns
      have hwrite := hl.write hq (by omega : l.k < ids.length) (ids[2 * (current / 2)])
      have hnext : uint32 (l.k + 1) = current / 2 + 1 := by
        rw [hk, uint32, Nat.mod_eq_of_lt (by omega)]
      rw [if_pos hodd, hl.read hq (by omega) (by omega), ok_bind, hwrite, ok_bind, hnext, hhalf, hk]
      rfl
    · rw [List.length_set, length_paired h hq]
    · rw [hhalf, take_set_paired (by omega) (by omega)]
      simp only [hcur]

end Level

/-! ## The whole function -/

section Root

variable {h} {transactions : List Trx}

theorem digestTurn_eq {ids : List Digest} {i : ℕ} (hi : i < transactions.length)
    (hids : i < ids.length) : h.digestTurn transactions (ids, i) =
      .ok (.again (ids.set i (h.merkleDigest transactions[i]), uint32 (i + 1))) := by
  simp only [digestTurn, if_pos hi, List.getElem?_eq_getElem hi, if_pos hids]

/-- The array when `i` digests have been put into it. -/
def filled (h : BlockHashes Trx Digest Checksum) (transactions : List Trx) (i : ℕ) : List Digest :=
  (transactions.take i).map h.merkleDigest ++
    List.replicate (transactions.length - i) h.noDigest

theorem length_filled {i : ℕ} (hi : i ≤ transactions.length) :
    (h.filled transactions i).length = transactions.length := by
  rw [filled, List.length_append, List.length_map, List.length_take_of_le hi,
    List.length_replicate, Nat.add_sub_cancel' hi]

theorem filled_succ {i : ℕ} (hi : i < transactions.length) :
    (h.filled transactions i).set i (h.merkleDigest transactions[i]) =
      h.filled transactions (i + 1) := by
  have hlength : ((transactions.take i).map h.merkleDigest).length = i := by
    rw [List.length_map, List.length_take_of_le hi.le]
  have hrest : transactions.length - i = transactions.length - (i + 1) + 1 := by omega
  rw [filled, List.set_append_right _ _ hlength.le, hlength, Nat.sub_self, hrest,
    List.replicate_succ, List.set_cons_zero, filled, List.take_add_one,
    List.getElem?_eq_getElem hi, List.map_append, List.append_assoc]
  rfl

/-- The first loop puts a digest for every transaction into the array. -/
theorem digests_return (hsize : transactions.length < 4294967296) :
    ∃ ids, Returns (fun turns ↦ loop (h.digestTurn transactions) turns
        (List.replicate transactions.length h.noDigest, 0)) ids ∧
      ids = transactions.map h.merkleDigest := by
  apply Returns.loop (I := fun s ↦ ∃ i ≤ transactions.length, s = (h.filled transactions i, i))
    (fun s ↦ transactions.length - s.2)
  · rintro s ⟨i, hi, rfl⟩
    rcases hi.lt_or_eq with hlt | rfl
    · left
      have hturn : h.digestTurn transactions (h.filled transactions i, i) =
          .ok (.again (h.filled transactions (i + 1), i + 1)) := by
        rw [digestTurn_eq hlt (by rwa [length_filled hi]), filled_succ hlt, uint32,
          Nat.mod_eq_of_lt (by omega)]
      refine ⟨_, Returns.of_eq fun turns ↦ hturn, ⟨i + 1, hlt, rfl⟩, ?_⟩
      exact Nat.sub_lt_sub_left hlt (Nat.lt_succ_self i)
    · right
      refine ⟨_, Returns.of_eq fun turns ↦ if_neg (lt_irrefl _), ?_⟩
      simp [filled]
  · exact ⟨0, Nat.zero_le _, by simp [filled]⟩

/-- The loop over the levels leaves the top of the tree in the first place. -/
theorem levels_return {ids : List Digest} (hne : ids ≠ []) (hsize : ids.length < 4294967296) :
    ∃ ids', Returns (fun turns ↦ loop (h.levelTurn turns) turns (ids, ids.length)) ids' ∧
      ids' ≠ [] ∧ ids'[0]? = h.treeTop ids := by
  apply Returns.loop (I := fun s ↦ 0 < s.2 ∧ s.2 ≤ s.1.length ∧ s.1.length < 4294967296 ∧
    h.treeTop (s.1.take s.2) = h.treeTop ids) (fun s ↦ s.2)
  · rintro ⟨ids₁, current⟩ ⟨hpos, hle, hlt, htop⟩
    by_cases hcurrent : 1 < current
    · left
      obtain ⟨ids₂, hreturns, hlength, htake⟩ := levelTurn_returns (h := h) hcurrent hle hlt
      refine ⟨_, hreturns, ⟨?_, ?_, ?_, ?_⟩, ?_⟩
      · show 0 < (current + 1) / 2
        omega
      · show (current + 1) / 2 ≤ ids₂.length
        rw [hlength]
        exact le_trans (by omega) hle
      · show ids₂.length < 4294967296
        rwa [hlength]
      · have hlong : ¬ (ids₁.take current).length ≤ 1 := by
          rw [List.length_take_of_le hle]
          exact Nat.not_le_of_lt hcurrent
        rw [treeTop, if_neg hlong] at htop
        rw [htake, htop]
      · show (current + 1) / 2 < current
        omega
    · right
      obtain rfl : current = 1 := by omega
      refine ⟨ids₁, Returns.of_eq fun turns ↦ if_neg hcurrent, ?_, ?_⟩
      · exact List.ne_nil_of_length_pos hle
      · rw [← htop, treeTop, if_pos (List.length_take_le 1 ids₁), List.head?_take,
          if_neg one_ne_zero, List.head?_eq_getElem?]
  · exact ⟨List.length_pos_of_ne_nil hne, le_rfl, hsize, by rw [List.take_length]⟩

theorem calculateMerkleRoot_of_lt (hsize : transactions.length < 4294967296) :
    Returns (h.calculateMerkleRoot transactions) (h.merkleRoot transactions) := by
  cases hlist : transactions with
  | nil =>
    apply Returns.of_eq
    intro turns
    have htop : h.treeTop [] = none := by simp [treeTop]
    rw [merkleRoot, List.map_nil, htop]
    rfl
  | cons first rest =>
    rw [← hlist]
    have hne : transactions.map h.merkleDigest ≠ [] := by simp [hlist]
    have hzero : transactions.length ≠ 0 := by simp [hlist]
    obtain ⟨ids, hids, rfl⟩ := digests_return (h := h) hsize
    obtain ⟨ids', hlevels, hne', htop⟩ :=
      levels_return (h := h) hne (by rwa [List.length_map])
    obtain ⟨top, rest', rfl⟩ := List.exists_cons_of_ne_nil hne'
    have hroot : h.checksumOfFirst (top :: rest') = .ok (h.merkleRoot transactions) := by
      rw [merkleRoot, ← htop]
      rfl
    have hfirst : Returns (fun _ ↦ h.checksumOfFirst (top :: rest')) (h.merkleRoot transactions) :=
      Returns.of_eq fun _ ↦ hroot
    have hrest := hlevels.bind (g := fun _ ids ↦ h.checksumOfFirst ids) hfirst
    have hwhole := hids.bind (g := fun turns ids ↦
      loop (h.levelTurn turns) turns (ids, ids.length) >>= h.checksumOfFirst) hrest
    apply hwhole.congr
    intro turns
    rw [calculateMerkleRoot, if_neg hzero]

/-- From 2³² transactions on, the index of the first loop never comes to their number. -/
theorem calculateMerkleRoot_cutOff (hsize : 4294967296 ≤ transactions.length) (turns : ℕ) :
    h.calculateMerkleRoot transactions turns = .error .cutOff := by
  have hne : transactions.length ≠ 0 := by omega
  have hloop : loop (h.digestTurn transactions) turns
      (List.replicate transactions.length h.noDigest, 0) = .error .cutOff := by
    apply loop_cutOff (I := fun s ↦ s.1.length = transactions.length ∧ s.2 < 4294967296)
    · rintro ⟨ids, i⟩ ⟨hlength, hi⟩
      have hlt : i < transactions.length := hi.trans_le hsize
      refine ⟨_, digestTurn_eq hlt (hlength.symm ▸ hlt), ?_, ?_⟩
      · rw [List.length_set, hlength]
      · exact Nat.mod_lt _ (by decide)
    · exact ⟨List.length_replicate, Nat.zero_lt_succ _⟩
  rw [calculateMerkleRoot, if_neg hne, hloop, error_bind]

end Root

/-- Hashes that tell the transactions and the shape of a tree apart in the decimals of a number. -/
def decimals : BlockHashes ℕ ℕ ℕ where
  merkleDigest trx := trx
  noDigest := 0
  hashPair left right := 100 * left + 10 * right + 9
  noChecksum := 0
  checksum id := id

/-- The root is that of the tree, and the array is read in order, exactly as long as 32 bits hold
the number of the transactions. -/
theorem calculateMerkleRoot_iff (transactions : List Trx) :
    Returns (h.calculateMerkleRoot transactions) (h.merkleRoot transactions) ↔
      transactions.length < 4294967296 := by
  constructor
  · intro hreturns
    by_contra hlarge
    apply Returns.not_of_cutOff _ hreturns
    exact calculateMerkleRoot_cutOff (Nat.le_of_not_lt hlarge)
  · exact calculateMerkleRoot_of_lt

theorem calculateMerkleRoot_never_returns :
    ¬ Returns (decimals.calculateMerkleRoot (List.replicate 4294967296 1))
      (decimals.merkleRoot (List.replicate 4294967296 1)) := by
  apply Returns.not_of_cutOff
  apply calculateMerkleRoot_cutOff
  exact List.length_replicate.ge

end BlockHashes

end SophiaTX.Protocol
