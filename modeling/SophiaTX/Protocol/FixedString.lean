import SophiaTX.Protocol.Base64m

/-!
# Fixed strings

Names of accounts and applications, stored as the bytes they decode to in 16, 24 or 32 bytes of
memory. A string is shorter than 2 GiB, so none of its lengths wraps.
-/

namespace SophiaTX.Protocol

open SophiaTX.Lib

/-- How a conversion fails. -/
inductive StringFault where
  /-- `std::out_of_range`. -/
  | outOfRange
  /-- Memory behind an object was read. -/
  | overread
  | assertion
  | eof
deriving DecidableEq

/-- The storage types of `fixed_string_impl_for_size`. -/
inductive Storage where
  | uint128
  | uint128Uint64
  | uint128Uint128
deriving DecidableEq

def Storage.sizeof : Storage → ℕ
  | uint128 => 16
  | uint128Uint64 => 24
  | uint128Uint128 => 32

/-- `fixed_string_impl`: the bytes of the storage in big-endian order, where those behind the size
are zero. -/
structure FixedString (σ : Storage) where
  data : Bytes
  size : ℕ
  length_data : data.length = σ.sizeof
  size_le : size ≤ σ.sizeof
  zeros : ∀ b ∈ data.drop size, b = 0
deriving DecidableEq

/-- The loop that makes the length of a string divisible by four. -/
def padding (length : ℕ) : ℕ := (4 - length % 4) % 4

def padString (str : Bytes) : Bytes := str ++ List.replicate (padding str.length) 65

/-- The loop that erases every `A` at the end of a string, on the reversed string. -/
def eraseLastA : Bytes → Except StringFault Bytes
  | [] => .error .outOfRange
  | c :: rest => if c = 65 then eraseLastA rest else .ok (c :: rest)

def readBytes (memory : Bytes) (n : ℕ) : Except StringFault Bytes :=
  if n ≤ memory.length then .ok (memory.take n) else .error .overread

namespace FixedString

variable {σ : Storage}

/-- Copies as many bytes as the storage holds, the rest of it being zero. -/
def copyBytes (σ : Storage) (s : Bytes) : FixedString σ where
  data := s.take σ.sizeof ++ List.replicate (σ.sizeof - s.length) 0
  size := min s.length σ.sizeof
  length_data := by
    rw [List.length_append, List.length_take, List.length_replicate]
    omega
  size_le := Nat.min_le_right _ _
  zeros := by
    have htake : (s.take σ.sizeof).length = min s.length σ.sizeof := by
      rw [List.length_take, Nat.min_comm]
    rw [List.drop_left' htake]
    intro b hb
    exact List.eq_of_mem_replicate hb

/-- The constructor from a string. -/
def ofString (σ : Storage) (str : Bytes) : FixedString σ :=
  copyBytes σ (base64mDecode (normalizeToBase64m (padString str)))

/-- `operator std::string`. The copy that is padded with zeros is not the one that is encoded. -/
def toString (x : FixedString σ) : Except StringFault Bytes := do
  let n := if x.size % 3 = 1 then x.size + 2 else if x.size % 3 = 2 then x.size + 1 else x.size
  let bytes ← readBytes x.data n
  let s := base64mEncode bytes
  if s.length ≠ 0 then do
    let rest ← eraseLastA s.reverse
    pure rest.reverse
  else pure s

/-- `operator ==`, which compares the storages only. -/
def equal (x y : FixedString σ) : Bool := x.data == y.data

end FixedString

/-! ## Packing -/

def maxRecursionDepth : ℕ := 25

def maxArrayAllocSize : ℕ := 10485760

/-- `pack` of an `unsigned_int`. -/
def packUnsignedInt (value : ℕ) : Bytes :=
  if value / 128 = 0 then [UInt8.ofNat (value % 128)]
  else UInt8.ofNat (value % 128 + 128) :: packUnsignedInt (value / 128)
decreasing_by omega

/-- The loop of `unpack` for an `unsigned_int`, with what is left of the stream. -/
def unpackUnsignedIntLoop (v shift : ℕ) : Bytes → Except StringFault (ℕ × Bytes)
  | [] => .error .eof
  | b :: stream =>
    let v := v ||| b.toNat % 128 * 2 ^ shift % 4294967296
    if 128 ≤ b.toNat then unpackUnsignedIntLoop v (shift + 7) stream else .ok (v, stream)

def packString (str : Bytes) : Bytes := packUnsignedInt str.length ++ str

def assertDepth (depth : ℕ) : Except StringFault Unit :=
  if depth ≤ maxRecursionDepth then .ok () else .error .assertion

def unpackUnsignedInt (stream : Bytes) (depth : ℕ) : Except StringFault (ℕ × Bytes) := do
  assertDepth depth
  unpackUnsignedIntLoop 0 0 stream

/-- `unpack` of a `std::vector<char>`. -/
def unpackChars (stream : Bytes) (depth : ℕ) : Except StringFault (Bytes × Bytes) := do
  assertDepth depth
  let (size, stream) ← unpackUnsignedInt stream (depth + 1)
  if maxArrayAllocSize ≤ size then .error .assertion
  else if stream.length < size then .error .eof
  else pure (stream.take size, stream.drop size)

def unpackString (stream : Bytes) (depth : ℕ) : Except StringFault (Bytes × Bytes) := do
  assertDepth depth
  unpackChars stream (depth + 1)

theorem or_shifted {v shift n : ℕ} (hv : v < 2 ^ shift) (hn : n * 2 ^ shift < 4294967296) :
    v ||| n * 2 ^ shift % 4294967296 = v + n * 2 ^ shift := by
  rw [Nat.mod_eq_of_lt hn, Nat.or_comm, Nat.mul_comm, ← Nat.two_pow_add_eq_or_of_lt hv,
    Nat.add_comm]

theorem unpackUnsignedIntLoop_pack {n v shift : ℕ} (stream : Bytes) (hv : v < 2 ^ shift)
    (hn : n * 2 ^ shift < 4294967296) :
    unpackUnsignedIntLoop v shift (packUnsignedInt n ++ stream) =
      .ok (v + n * 2 ^ shift, stream) := by
  induction n using packUnsignedInt.induct generalizing v shift with
  | case1 n hlast =>
    have hbyte : (UInt8.ofNat (n % 128)).toNat = n := by
      rw [UInt8.toNat_ofNat']
      omega
    have hsmall : n % 128 = n := by omega
    rw [packUnsignedInt, if_pos hlast, List.singleton_append, unpackUnsignedIntLoop, hbyte,
      if_neg (by omega), hsmall, or_shifted hv hn]
  | case2 n hmore ih =>
    have hbyte : (UInt8.ofNat (n % 128 + 128)).toNat = n % 128 + 128 := by
      rw [UInt8.toNat_ofNat']
      omega
    have hlow : (n % 128 + 128) % 128 = n % 128 := by omega
    have hmul : n % 128 * 2 ^ shift ≤ n * 2 ^ shift := Nat.mul_le_mul_right _ (Nat.mod_le _ _)
    have hnext : v + n % 128 * 2 ^ shift < 2 ^ (shift + 7) := by
      have hdigit : n % 128 * 2 ^ shift ≤ 127 * 2 ^ shift :=
        Nat.mul_le_mul_right _ (Nat.le_of_lt_succ (Nat.mod_lt _ (by decide)))
      rw [pow_add]
      omega
    have hsplit : n % 128 * 2 ^ shift + n / 128 * 2 ^ (shift + 7) = n * 2 ^ shift := by
      calc n % 128 * 2 ^ shift + n / 128 * 2 ^ (shift + 7)
          = (128 * (n / 128) + n % 128) * 2 ^ shift := by ring
        _ = n * 2 ^ shift := by rw [Nat.div_add_mod]
    rw [packUnsignedInt, if_neg hmore, List.cons_append, unpackUnsignedIntLoop, hbyte,
      if_pos (Nat.le_add_left _ _), hlow, or_shifted hv (by omega), ih hnext (by omega),
      Nat.add_assoc, hsplit]

/-- Unpacking undoes packing for short strings, at every depth that leaves room. -/
theorem unpackString_packString {str : Bytes} (hshort : str.length < maxArrayAllocSize)
    {depth : ℕ} (hdepth : depth + 2 ≤ maxRecursionDepth) (stream : Bytes) :
    unpackString (packString str ++ stream) depth = .ok (str, stream) := by
  have hassert {d : ℕ} (hd : d ≤ depth + 2) : assertDepth d = .ok () := if_pos (hd.trans hdepth)
  have hsize : unpackUnsignedIntLoop 0 0 (packUnsignedInt str.length ++ (str ++ stream)) =
      .ok (str.length, str ++ stream) := by
    have hsmall : str.length * 2 ^ 0 < 4294967296 := by
      rw [maxArrayAllocSize] at hshort
      omega
    have hloop := unpackUnsignedIntLoop_pack (str ++ stream) (Nat.one_pos : 0 < 2 ^ 0) hsmall
    rwa [pow_zero, Nat.mul_one, Nat.zero_add] at hloop
  have hroom : ¬ (str ++ stream).length < str.length := by
    rw [List.length_append]
    omega
  rw [unpackString, hassert (by omega), ok_bind, unpackChars, hassert (by omega), ok_bind,
    unpackUnsignedInt, hassert (by omega), ok_bind, packString, List.append_assoc, hsize, ok_bind]
  dsimp only
  rw [if_neg (Nat.not_le.2 hshort), if_neg hroom, List.take_left, List.drop_left]
  rfl

namespace FixedString

variable {σ : Storage}

def pack (x : FixedString σ) : Except StringFault Bytes := do
  let str ← x.toString
  pure (packString (normalizeToBase64 str))

def unpack (σ : Storage) (stream : Bytes) (depth : ℕ) :
    Except StringFault (FixedString σ × Bytes) := do
  assertDepth depth
  let (str, stream) ← unpackString stream (depth + 1)
  pure (ofString σ str, stream)

/-- `to_variant`: the string that the variant holds. -/
def toVariant (x : FixedString σ) : Except StringFault Bytes := x.toString

/-- `from_variant`, of a variant that holds a string. -/
def fromVariant (σ : Storage) (str : Bytes) : FixedString σ := ofString σ str

/-! ## Conversion to a string -/

variable {x y : FixedString σ} {str : Bytes} {groups : List ℕ}

/-- How many bytes the conversion reads: the size, rounded up to a multiple of three. -/
def readSize (x : FixedString σ) : ℕ := (x.size + 2) / 3 * 3

/-- The conversion reads no byte behind the storage, and erases only a part of the characters. -/
def Convertible (x : FixedString σ) : Prop :=
  x.readSize ≤ σ.sizeof ∧ (x.size = 0 ∨ ∃ b ∈ x.data, b ≠ 0)

instance : Decidable x.Convertible := inferInstanceAs (Decidable (_ ∧ _))

/-- The places in the alphabet of the characters of the converted string. -/
def letters (x : FixedString σ) : List ℕ := trim (sextets (x.data.take x.readSize))

theorem eraseLastA_map (hsmall : ∀ n ∈ groups, n < 64) :
    eraseLastA (groups.map base64mChar).reverse =
      if trim groups = [] then .error .outOfRange
      else .ok ((trim groups).map base64mChar).reverse := by
  induction groups using List.reverseRecOn with
  | nil => rfl
  | append_singleton groups n ih =>
    have hn : base64mChar n = 65 ↔ n = 0 :=
      base64mChar_eq_A (hsmall n (List.mem_append_right _ (List.mem_singleton.2 rfl)))
    have htrim : trim (groups ++ [n]) = if n = 0 then trim groups else groups ++ [n] := by
      rw [trim, List.rdropWhile_concat]
      simp only [decide_eq_true_eq]
      rfl
    rw [htrim, List.map_append, List.reverse_append]
    by_cases hzero : n = 0
    · rw [if_pos hzero, ← ih fun m hm ↦ hsmall m (List.mem_append_left _ hm)]
      exact if_pos (hn.2 hzero)
    · rw [if_neg hzero, if_neg (by simp), List.map_append, List.reverse_append]
      exact if_neg (mt hn.1 hzero)

/-- Beyond what the conversion reads the storage is zero. -/
theorem data_eq {m : ℕ} (hm : x.size ≤ m) :
    x.data = x.data.take m ++ List.replicate (σ.sizeof - m) 0 := by
  have hrest : x.data.drop m = List.replicate (σ.sizeof - m) 0 := by
    rw [List.eq_replicate_iff, List.length_drop, x.length_data]
    refine ⟨rfl, fun b hb ↦ x.zeros b ?_⟩
    exact List.drop_subset_drop_left x.data hm hb
  rw [← hrest, List.take_append_drop]

theorem size_le_readSize (x : FixedString σ) : x.size ≤ x.readSize := by
  rw [readSize]
  omega

theorem dvd_length_read (h : x.readSize ≤ σ.sizeof) : 3 ∣ (x.data.take x.readSize).length := by
  rw [List.length_take, x.length_data, Nat.min_eq_left h, readSize]
  exact Nat.dvd_mul_left 3 _

theorem letters_eq_nil_iff (h : x.readSize ≤ σ.sizeof) : x.letters = [] ↔ ∀ b ∈ x.data, b = 0 := by
  rw [letters, trim_sextets_eq_nil_iff (dvd_length_read h)]
  constructor
  · intro hzero b hb
    rw [data_eq x.size_le_readSize] at hb
    rcases List.mem_append.1 hb with hread | hrest
    · exact hzero b hread
    · exact List.eq_of_mem_replicate hrest
  · intro hzero b hb
    exact hzero b (List.mem_of_mem_take hb)

theorem letters_lt (h : x.readSize ≤ σ.sizeof) : ∀ n ∈ x.letters, n < 64 := by
  intro n hn
  apply lt_of_mem_sextets (dvd_length_read h) n
  exact (List.rdropWhile_prefix _ _).subset hn

/-- The conversion succeeds for convertible values only, with the characters of their groups. -/
theorem toString_eq_ok :
    x.toString = .ok str ↔ x.Convertible ∧ x.letters.map base64mChar = str := by
  have hsize : (if x.size % 3 = 1 then x.size + 2 else
      if x.size % 3 = 2 then x.size + 1 else x.size) = x.readSize := by
    rw [readSize]
    split
    · omega
    split <;> omega
  rw [toString, hsize, readBytes, x.length_data, Convertible]
  by_cases hread : x.readSize ≤ σ.sizeof
  swap
  · rw [if_neg hread]
    simp [hread]
  have hdvd := dvd_length_read hread
  rw [if_pos hread, ok_bind, base64mEncode_eq hdvd]
  have hlength : ((sextets (x.data.take x.readSize)).map base64mChar).length = 0 ↔ x.size = 0 := by
    have hsextets := length_sextets hdvd
    rw [List.length_take, x.length_data, Nat.min_eq_left hread] at hsextets
    have hround : x.readSize = (x.size + 2) / 3 * 3 := rfl
    rw [List.length_map]
    omega
  by_cases hempty : x.size = 0
  · have hsextets := List.eq_nil_of_length_eq_zero (hlength.2 hempty)
    have hletters : x.letters = [] := by
      rw [letters, List.map_eq_nil_iff.1 hsextets]
      rfl
    rw [hsextets, hletters]
    change (pure [] : Except StringFault Bytes) = .ok str ↔ _
    rw [pure_eq_ok, List.map_nil]
    simp only [hread, hempty, true_or, and_self, true_and]
  · have hne := mt hlength.1 hempty
    dsimp only
    rw [if_pos hne, eraseLastA_map (lt_of_mem_sextets hdvd), ← letters]
    by_cases hnil : x.letters = []
    · have hzero := (letters_eq_nil_iff hread).1 hnil
      rw [if_pos hnil, error_bind]
      simp only [error_ne_ok, false_iff]
      rintro ⟨⟨_, hsize | ⟨b, hb, hne⟩⟩, _⟩
      · exact hempty hsize
      · exact hne (hzero b hb)
    · have hbyte : ∃ b ∈ x.data, b ≠ 0 := by
        rw [letters_eq_nil_iff hread] at hnil
        push Not at hnil
        exact hnil
      rw [if_neg hnil, ok_bind, List.reverse_reverse, pure_eq_ok]
      simp [hread, hbyte]

/-! ## Round trips -/

theorem padding_lt (length : ℕ) : padding length < 4 := Nat.mod_lt _ (by decide)

theorem dvd_add_padding (length : ℕ) : 4 ∣ length + padding length := by
  rw [padding]
  omega

/-- What a string over the alphabet decodes to, after it has been padded. -/
theorem base64mDecode_padString (hsmall : ∀ n ∈ groups, n < 64) :
    base64mDecode (normalizeToBase64m (padString (groups.map base64mChar))) =
      octets (groups ++ List.replicate (padding groups.length) 0) := by
  have hpadded : padString (groups.map base64mChar) =
      (groups ++ List.replicate (padding groups.length) 0).map base64mChar := by
    rw [padString, List.length_map, List.map_append, List.map_replicate]
    rfl
  have hall : ∀ n ∈ groups ++ List.replicate (padding groups.length) 0, n < 64 := by
    intro n hn
    rcases List.mem_append.1 hn with hn | hn
    · exact hsmall n hn
    · rw [List.eq_of_mem_replicate hn]
      decide
  generalize hwhole : groups ++ List.replicate (padding groups.length) 0 = whole at hpadded hall
  have halphabet : ∀ c ∈ whole.map base64mChar, c ∈ base64mChars := by
    intro c hc
    obtain ⟨n, hn, rfl⟩ := List.mem_map.1 hc
    exact base64mChar_mem (hall n hn)
  have hdvd : 4 ∣ (whole.map base64mChar).length := by
    rw [List.length_map, ← hwhole, List.length_append, List.length_replicate]
    exact dvd_add_padding _
  have hvalues : (whole.map base64mChar).map base64mValue = whole := by
    calc (whole.map base64mChar).map base64mValue = whole.map id := by
          rw [List.map_map]
          exact List.map_congr_left fun n hn ↦ base64mValue_char (hall n hn)
      _ = whole := List.map_id whole
  rw [hpadded, normalizeToBase64m_eq halphabet, base64mDecode_eq hdvd halphabet, hvalues]

/-- A value is restored from its converted string, up to its size. -/
theorem data_ofString_letters (h : x.readSize ≤ σ.sizeof) :
    (ofString σ (x.letters.map base64mChar)).data = x.data := by
  have hsmall := letters_lt h
  obtain ⟨m, hbytes⟩ := exists_eq_octets_append (dvd_length_read h) (padding_lt x.letters.length)
    (dvd_add_padding x.letters.length)
  rw [ofString, base64mDecode_padString hsmall]
  rw [← letters] at hbytes
  generalize octets (x.letters ++ List.replicate (padding x.letters.length) 0) = content at hbytes
  have hdata : x.data = content ++ List.replicate (m + (σ.sizeof - x.readSize)) 0 := by
    rw [List.replicate_add, ← List.append_assoc, ← hbytes]
    exact data_eq x.size_le_readSize
  have hlength := congrArg List.length hdata
  rw [x.length_data, List.length_append, List.length_replicate] at hlength
  have hfits : content.length ≤ σ.sizeof := by omega
  have hrest : m + (σ.sizeof - x.readSize) = σ.sizeof - content.length := by omega
  calc (copyBytes σ content).data
      = content.take σ.sizeof ++ List.replicate (σ.sizeof - content.length) 0 := rfl
    _ = x.data := by rw [List.take_of_length_le hfits, hdata, hrest]

/-- A string over the alphabet is read the same way in its other normal form. -/
theorem ofString_normalizeToBase64 (halphabet : ∀ c ∈ str, c ∈ base64mChars) :
    ofString σ (normalizeToBase64 str) = ofString σ str := by
  have hlength : (normalizeToBase64 str).length = str.length := by
    rw [normalizeToBase64, replaceChar, replaceChar, List.length_map, List.length_map]
  have hpadded : padString (normalizeToBase64 str) = normalizeToBase64 (padString str) := by
    rw [padString, hlength, padString, normalizeToBase64, normalizeToBase64, replaceChar,
      replaceChar, replaceChar, replaceChar, List.map_append, List.map_append, List.map_replicate,
      List.map_replicate]
    rfl
  have hall : ∀ c ∈ padString str, c ∈ base64mChars := by
    intro c hc
    rcases List.mem_append.1 hc with hc | hc
    · exact halphabet c hc
    · rw [List.eq_of_mem_replicate hc]
      decide
  rw [ofString, hpadded, normalizeToBase64m_normalizeToBase64 hall, ofString,
    normalizeToBase64m_eq hall]

/-- The conversion succeeds, and both packing and variants give an equal value back. -/
def RoundTrips (x : FixedString σ) : Prop :=
  (∃ str, x.toString = .ok str) ∧
    (∃ bytes, x.pack = .ok bytes ∧
      ∀ stream, ∃ y, unpack σ (bytes ++ stream) 0 = .ok (y, stream) ∧ y.equal x = true) ∧
    ∃ v, x.toVariant = .ok v ∧ (fromVariant σ v).equal x = true

theorem length_letters_le (h : x.readSize ≤ σ.sizeof) : x.letters.length ≤ 44 := by
  have hprefix : x.letters.length ≤ (sextets (x.data.take x.readSize)).length :=
    (List.rdropWhile_prefix _ _).length_le
  have hsextets := length_sextets (dvd_length_read h)
  rw [List.length_take, x.length_data, Nat.min_eq_left h] at hsextets
  have hsize : σ.sizeof ≤ 32 := by cases σ <;> decide
  omega

theorem Convertible.roundTrips (h : x.Convertible) : x.RoundTrips := by
  have hstr : x.toString = .ok (x.letters.map base64mChar) := toString_eq_ok.2 ⟨h, rfl⟩
  have halphabet : ∀ c ∈ x.letters.map base64mChar, c ∈ base64mChars := by
    intro c hc
    obtain ⟨n, hn, rfl⟩ := List.mem_map.1 hc
    exact base64mChar_mem (letters_lt h.1 n hn)
  have hequal : (ofString σ (x.letters.map base64mChar)).equal x = true := by
    rw [equal, beq_iff_eq]
    exact data_ofString_letters h.1
  have hpack : x.pack =
      .ok (packString (normalizeToBase64 (x.letters.map base64mChar))) := by
    rw [pack, hstr]
    rfl
  refine ⟨⟨_, hstr⟩, ⟨_, hpack, fun stream ↦ ⟨_, ?_, hequal⟩⟩, ⟨_, hstr, hequal⟩⟩
  have hshort : (normalizeToBase64 (x.letters.map base64mChar)).length < maxArrayAllocSize := by
    have hletters := length_letters_le h.1
    rw [normalizeToBase64, replaceChar, replaceChar, List.length_map, List.length_map,
      List.length_map, maxArrayAllocSize]
    omega
  rw [unpack, assertDepth, if_pos (by decide), ok_bind,
    unpackString_packString hshort (by decide), ok_bind]
  dsimp only
  rw [ofString_normalizeToBase64 halphabet]
  rfl

/-- Whole groups of bytes that fit are what the conversion reads. -/
theorem letters_copyBytes {content : Bytes} (hdvd : 3 ∣ content.length)
    (hfits : content.length ≤ σ.sizeof) :
    (copyBytes σ content).readSize = content.length ∧
      (copyBytes σ content).letters = trim (sextets content) := by
  have hsize : (copyBytes σ content).readSize = content.length := by
    rw [readSize, copyBytes]
    dsimp only
    omega
  have htake : (copyBytes σ content).data.take content.length = content := by
    calc (copyBytes σ content).data.take content.length
        = (content.take σ.sizeof ++ List.replicate (σ.sizeof - content.length) 0).take
            content.length := rfl
      _ = content := by rw [List.take_of_length_le hfits, List.take_left]
  exact ⟨hsize, by rw [letters, hsize, htake]⟩

/-- Trimmed groups whose bytes fit are what the value made of them is converted to. -/
theorem toString_ofString_map (hsmall : ∀ n ∈ groups, n < 64) (htrim : trim groups = groups)
    (hfits : (octets (groups ++ List.replicate (padding groups.length) 0)).length ≤ σ.sizeof) :
    (ofString σ (groups.map base64mChar)).toString = .ok (groups.map base64mChar) := by
  have hall : ∀ n ∈ groups ++ List.replicate (padding groups.length) 0, n < 64 := by
    intro n hn
    rcases List.mem_append.1 hn with hn | hn
    · exact hsmall n hn
    · rw [List.eq_of_mem_replicate hn]
      decide
  have hdvd : 4 ∣ (groups ++ List.replicate (padding groups.length) 0).length := by
    rw [List.length_append, List.length_replicate]
    exact dvd_add_padding _
  have hlength := length_octets hdvd
  have hsextets := sextets_octets hdvd hall
  rw [ofString, base64mDecode_padString hsmall]
  generalize hcontent : octets (groups ++ List.replicate (padding groups.length) 0) = content at *
  have hthree : 3 ∣ content.length := by omega
  obtain ⟨hread, hletters⟩ := letters_copyBytes hthree hfits
  rw [hsextets, trim_append_replicate, htrim] at hletters
  rw [toString_eq_ok, hletters]
  refine ⟨⟨hread.trans_le hfits, ?_⟩, rfl⟩
  by_cases hnil : groups = []
  · subst hnil
    rw [← hcontent]
    exact .inl (Nat.zero_min _)
  · have hne : (copyBytes σ content).letters ≠ [] := hletters.trans_ne hnil
    rw [Ne, letters_eq_nil_iff (hread.trans_le hfits)] at hne
    push Not at hne
    exact .inr hne

/-- A string over the alphabet that does not end in `A` and fits is converted back to itself. -/
theorem toString_ofString (halphabet : ∀ c ∈ str, c ∈ base64mChars)
    (hlast : str.getLast? ≠ some 65)
    (hfits : (base64mDecode (normalizeToBase64m (padString str))).length ≤ σ.sizeof) :
    (ofString σ str).toString = .ok str := by
  have hchars : (str.map base64mValue).map base64mChar = str := by
    calc (str.map base64mValue).map base64mChar = str.map id := by
          rw [List.map_map]
          exact List.map_congr_left fun c hc ↦ (forall_base64mChars c (halphabet c hc)).1
      _ = str := List.map_id str
  have hsmall : ∀ n ∈ str.map base64mValue, n < 64 := by
    intro n hn
    obtain ⟨c, hc, rfl⟩ := List.mem_map.1 hn
    exact (forall_base64mChars c (halphabet c hc)).2.1
  have htrim : trim (str.map base64mValue) = str.map base64mValue := by
    rw [trim, List.rdropWhile_eq_self_iff]
    intro hne hzero
    have hstr : str ≠ [] := mt (fun h ↦ List.map_eq_nil_iff.2 h) hne
    have hmem := List.getLast_mem hstr
    rw [List.getLast_map, decide_eq_true_eq] at hzero
    have hA := (forall_base64mChars _ (halphabet _ hmem)).2.2.2.2.2.2 hzero
    rw [List.getLast?_eq_some_getLast hstr, hA] at hlast
    exact hlast rfl
  have hdecoded := base64mDecode_padString hsmall
  rw [hchars] at hdecoded
  rw [hdecoded] at hfits
  have hconverted := toString_ofString_map hsmall htrim hfits
  rwa [hchars] at hconverted

/-- Values with equal storages are converted to the same string, whatever their sizes. -/
theorem letters_eq_of_data_eq (hx : x.readSize ≤ σ.sizeof) (hy : y.readSize ≤ σ.sizeof)
    (hdata : x.data = y.data) : x.letters = y.letters := by
  wlog hle : x.readSize ≤ y.readSize generalizing x y
  · exact (this hy hx hdata.symm (Nat.le_of_not_le hle)).symm
  obtain ⟨k, hk⟩ : ∃ k, y.readSize = x.readSize + 3 * k :=
    ⟨(y.readSize - x.readSize) / 3, by rw [readSize, readSize] at *; omega⟩
  have hlength : (x.data.take x.readSize).length = x.readSize := by
    rw [List.length_take, x.length_data, Nat.min_eq_left hx]
  have hread : y.data.take y.readSize = x.data.take x.readSize ++ List.replicate (3 * k) 0 := by
    calc y.data.take y.readSize
        = (x.data.take x.readSize ++ List.replicate (σ.sizeof - x.readSize) 0).take
            ((x.data.take x.readSize).length + 3 * k) := by
          rw [hlength, ← hk, ← data_eq x.size_le_readSize, hdata]
      _ = x.data.take x.readSize ++ List.replicate (3 * k) 0 := by
          rw [List.take_length_add_append, List.take_replicate, Nat.min_eq_left (by omega)]
  rw [letters, letters, hread, sextets_append (dvd_length_read hx), sextets_replicate_zero,
    trim_append_replicate]

/-- Conversion, packing and comparison of values made of strings behave exactly when no byte behind
the storage is read and some character is left; names that fit are restored in any case. -/
theorem faithful_iff (σ : Storage) :
    (∀ str : Bytes, (∀ c ∈ str, c ∈ base64mChars) → str.getLast? ≠ some 65 →
      (base64mDecode (normalizeToBase64m (padString str))).length ≤ σ.sizeof →
        (ofString σ str).toString = .ok str) ∧
    ∀ s t : Bytes,
      ((ofString σ s).RoundTrips ∧ (ofString σ t).RoundTrips ∧
          ((ofString σ s).equal (ofString σ t) = true ↔
            (ofString σ s).toString = (ofString σ t).toString)) ↔
        (ofString σ s).Convertible ∧ (ofString σ t).Convertible := by
  refine ⟨fun str ↦ toString_ofString, fun s t ↦ ⟨?_, ?_⟩⟩
  · rintro ⟨⟨⟨str, hs⟩, _⟩, ⟨⟨str', ht⟩, _⟩, _⟩
    exact ⟨(toString_eq_ok.1 hs).1, (toString_eq_ok.1 ht).1⟩
  · rintro ⟨hs, ht⟩
    refine ⟨hs.roundTrips, ht.roundTrips, ?_⟩
    rw [toString_eq_ok.2 ⟨hs, rfl⟩, toString_eq_ok.2 ⟨ht, rfl⟩, equal, beq_iff_eq]
    constructor
    · intro hdata
      rw [letters_eq_of_data_eq hs.1 ht.1 hdata]
    · intro hstr
      calc (ofString σ s).data
          = (ofString σ ((ofString σ s).letters.map base64mChar)).data :=
            (data_ofString_letters hs.1).symm
        _ = (ofString σ ((ofString σ t).letters.map base64mChar)).data := by
            rw [Except.ok.inj hstr]
        _ = (ofString σ t).data := data_ofString_letters ht.1

/-- The name `alice` is converted back to itself, and not to the name `bob`. -/
theorem faithful_alice :
    (ofString .uint128Uint64 [97, 108, 105, 99, 101]).toString = .ok [97, 108, 105, 99, 101] ∧
      (ofString .uint128Uint64 [97, 108, 105, 99, 101]).RoundTrips ∧
      ¬ (ofString .uint128Uint64 [97, 108, 105, 99, 101]).equal
        (ofString .uint128Uint64 [98, 111, 98]) = true := by
  obtain ⟨hrestored, hfaithful⟩ := faithful_iff .uint128Uint64
  have hpair := (hfaithful [97, 108, 105, 99, 101] [98, 111, 98]).2 (by decide +kernel)
  refine ⟨hrestored _ (by decide +kernel) (by decide) (by decide +kernel), hpair.1, ?_⟩
  rw [hpair.2.2]
  decide +kernel

/-- An account named `A` cannot be written out, though it equals the account without a name, and a
name that fills 16 bytes is read beyond its storage. -/
theorem names_not_faithful :
    (ofString .uint128Uint64 [65]).toString = .error .outOfRange ∧
      (ofString .uint128Uint64 []).toString = .ok [] ∧
      (ofString .uint128Uint64 [65]).equal (ofString .uint128Uint64 []) = true ∧
      (ofString .uint128 (List.replicate 24 66)).toString = .error .overread := by
  decide +kernel

end FixedString

end SophiaTX.Protocol
