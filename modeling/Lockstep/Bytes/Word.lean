import Lockstep.Numeral.Binary32

/- Fixed-size values as bytes, most significant byte first.

   1. `bigEndian size n` writes a number in `size` bytes and `ofBigEndian` reads one back. A number that
      fits comes back (`ofBigEndian_bigEndian`), and so do bytes (`bigEndian_ofBigEndian`).
   2. A `Word` is a type with a fixed size and a numbering of its values below `256 ^ size`. One
      codec serves all of them: integers of both signs and single precision numbers, whose bits
      pass unchanged.
   3. `Word.pack?` writes over the front of a buffer and `Word.unpack?` reads from it; a buffer
      shorter than the word has no result. -/
namespace Lockstep

/-- The last `size` base-256 digits of `n`, most significant first. -/
def bigEndian : (size : Nat) → Nat → List UInt8
  | 0, _ => []
  | size + 1, n => UInt8.ofNat (n / 256 ^ size) :: bigEndian size n

/-- The number whose base-256 digits are the bytes. -/
def ofBigEndian (bytes : List UInt8) : Nat := bytes.foldl (fun n b => 256 * n + b.toNat) 0

@[simp] theorem length_bigEndian (size n : Nat) : (bigEndian size n).length = size := by
  induction size with
  | zero => rfl
  | succ size ih => simp [bigEndian, ih]

theorem foldl_bigEndian (size n acc : Nat) :
    (bigEndian size n).foldl (fun n b => 256 * n + b.toNat) acc =
      acc * 256 ^ size + n % 256 ^ size := by
  induction size generalizing acc with
  | zero => simp [bigEndian, Nat.mod_one]
  | succ size ih =>
    have hmod : n % 256 ^ (size + 1) = n % 256 ^ size + 256 ^ size * (n / 256 ^ size % 256) :=
      Nat.mod_pow_succ
    rw [bigEndian, List.foldl_cons, ih, UInt8.toNat_ofNat', hmod, Nat.add_mul, Nat.pow_succ]
    grind

/-- A number that fits in `size` bytes comes back. -/
theorem ofBigEndian_bigEndian {size n : Nat} (h : n < 256 ^ size) :
    ofBigEndian (bigEndian size n) = n := by
  simp [ofBigEndian, foldl_bigEndian, Nat.mod_eq_of_lt h]

/-- Only the last `size` digits of a number are written. -/
theorem bigEndian_add_mul (size k n : Nat) :
    bigEndian size (k * 256 ^ size + n) = bigEndian size n := by
  induction size generalizing k with
  | zero => rfl
  | succ size ih =>
    have hpow : k * 256 ^ (size + 1) = k * 256 * 256 ^ size := by
      rw [Nat.pow_succ, Nat.mul_comm (256 ^ size), Nat.mul_assoc]
    have hdiv : (k * 256 * 256 ^ size + n) / 256 ^ size = n / 256 ^ size + 256 * k := by
      rw [Nat.add_comm, Nat.add_mul_div_right _ _ (Nat.pow_pos (by decide)), Nat.mul_comm k]
    have hdigit : UInt8.ofNat (n / 256 ^ size + 256 * k) = UInt8.ofNat (n / 256 ^ size) := by
      rw [← UInt8.toNat_inj, UInt8.toNat_ofNat', UInt8.toNat_ofNat']
      exact Nat.add_mul_mod_self_left ..
    rw [bigEndian, bigEndian, hpow, hdiv, hdigit, ih]

theorem ofBigEndian_cons (b : UInt8) (bytes : List UInt8) :
    ofBigEndian (b :: bytes) = b.toNat * 256 ^ bytes.length + ofBigEndian bytes := by
  have hfoldl : ∀ (bytes : List UInt8) (acc : Nat),
      bytes.foldl (fun n b => 256 * n + b.toNat) acc =
        acc * 256 ^ bytes.length + ofBigEndian bytes := by
    intro bytes
    induction bytes with
    | nil =>
      intro acc
      exact (Nat.mul_one acc).symm
    | cons c bytes ih =>
      intro acc
      rw [ofBigEndian, List.foldl_cons, List.foldl_cons, ih, ih, List.length_cons, Nat.pow_succ]
      grind
  rw [ofBigEndian, List.foldl_cons, hfoldl, Nat.mul_zero, Nat.zero_add]

theorem ofBigEndian_lt (bytes : List UInt8) : ofBigEndian bytes < 256 ^ bytes.length := by
  induction bytes with
  | nil => exact Nat.one_pos
  | cons b bytes ih =>
    have hb : (b.toNat + 1) * 256 ^ bytes.length ≤ 256 * 256 ^ bytes.length :=
      Nat.mul_le_mul_right _ b.toNat_lt
    rw [ofBigEndian_cons, List.length_cons, Nat.pow_succ, Nat.mul_comm _ 256]
    rw [Nat.add_mul, Nat.one_mul] at hb
    omega

/-- Bytes are the digits of the number that they make. -/
theorem bigEndian_ofBigEndian (bytes : List UInt8) :
    bigEndian bytes.length (ofBigEndian bytes) = bytes := by
  induction bytes with
  | nil => rfl
  | cons b bytes ih =>
    have hdiv : (b.toNat * 256 ^ bytes.length + ofBigEndian bytes) / 256 ^ bytes.length = b.toNat := by
      rw [Nat.add_comm, Nat.add_mul_div_right _ _ (Nat.pow_pos (by decide)),
        Nat.div_eq_of_lt (ofBigEndian_lt bytes), Nat.zero_add]
    rw [ofBigEndian_cons, List.length_cons, bigEndian, hdiv, UInt8.ofNat_toNat, bigEndian_add_mul, ih]

/-- A type of fixed size in bytes. -/
structure Word (α : Type) where
  size : Nat
  toNat : α → Nat
  ofNat : Nat → α
  toNat_lt : ∀ x, toNat x < 256 ^ size
  ofNat_toNat : ∀ x, ofNat (toNat x) = x

namespace Word
variable {α : Type}

/-- The bytes of a value. -/
def encode (w : Word α) (x : α) : List UInt8 := bigEndian w.size (w.toNat x)

/-- The value of `size` bytes. -/
def decode (w : Word α) (bytes : List UInt8) : α := w.ofNat (ofBigEndian bytes)

@[simp] theorem length_encode (w : Word α) (x : α) : (w.encode x).length = w.size :=
  length_bigEndian ..

@[simp] theorem decode_encode (w : Word α) (x : α) : w.decode (w.encode x) = x := by
  rw [decode, encode, ofBigEndian_bigEndian (w.toNat_lt x), w.ofNat_toNat]

/-- `x` written over the front of a buffer, the rest kept. -/
def pack? (w : Word α) (x : α) (buffer : List UInt8) : Option (List UInt8) :=
  if buffer.length < w.size then none else some (w.encode x ++ buffer.drop w.size)

/-- The value at the front of a buffer. -/
def unpack? (w : Word α) (buffer : List UInt8) : Option α :=
  if buffer.length < w.size then none else some (w.decode (buffer.take w.size))

/-! ## The words -/

def uint8 : Word UInt8 where
  size := 1
  toNat := UInt8.toNat
  ofNat := UInt8.ofNat
  toNat_lt := fun x => x.toNat_lt
  ofNat_toNat := fun _ => UInt8.ofNat_toNat

def uint32 : Word UInt32 where
  size := 4
  toNat := UInt32.toNat
  ofNat := UInt32.ofNat
  toNat_lt := fun x => x.toNat_lt
  ofNat_toNat := fun _ => UInt32.ofNat_toNat

/-- Any four bytes are those of the word that they spell. -/
theorem encode_decode_uint32 {bytes : List UInt8} (h : bytes.length = 4) :
    uint32.encode (uint32.decode bytes) = bytes := by
  have hlt : ofBigEndian bytes < 2 ^ 32 := by
    have := ofBigEndian_lt bytes
    rwa [h] at this
  have hnat : (UInt32.ofNat (ofBigEndian bytes)).toNat = ofBigEndian bytes := by
    rw [UInt32.toNat_ofNat', Nat.mod_eq_of_lt hlt]
  show bigEndian 4 (UInt32.ofNat (ofBigEndian bytes)).toNat = bytes
  rw [hnat, ← h, bigEndian_ofBigEndian]

/-- Two's complement, through the unsigned word of the same bits. -/
def int32 : Word Int32 where
  size := 4
  toNat := fun x => x.toUInt32.toNat
  ofNat := fun n => (UInt32.ofNat n).toInt32
  toNat_lt := fun x => x.toUInt32.toNat_lt
  ofNat_toNat := fun _ => by simp

/-- Two's complement, through the unsigned word of the same bits. -/
def int64 : Word Int64 where
  size := 8
  toNat := fun x => x.toUInt64.toNat
  ofNat := fun n => (UInt64.ofNat n).toInt64
  toNat_lt := fun x => x.toUInt64.toNat_lt
  ofNat_toNat := fun _ => by simp

/-- The bits of a single precision number, whatever they stand for. -/
def binary32 : Word Binary32 where
  size := 4
  toNat := fun x => x.bits.toNat
  ofNat := fun n => ⟨UInt32.ofNat n⟩
  toNat_lt := fun x => x.bits.toNat_lt
  ofNat_toNat := fun x => by simp

end Word
end Lockstep
