import Mathlib.Data.List.Induction
import Mathlib.Tactic.Ring

/-! Fixed-width big-endian encodings of natural numbers as bytes. -/
namespace BigEndian

/-- The low `k` bytes of `n`, most significant first. -/
def encode : ℕ → ℕ → List UInt8
  | 0, _ => []
  | k+1, n => encode k (n/256) ++ [UInt8.ofNat n]

def decode (bs : List UInt8) : ℕ := bs.foldl (fun n b => 256*n + b.toNat) 0

@[simp] theorem encode_length (k n : ℕ) : (encode k n).length = k := by
  induction k generalizing n with
  | zero => rfl
  | succ k ih => simp [encode,ih]

@[simp] theorem decode_nil : decode [] = 0 := rfl

@[simp] theorem decode_snoc (bs : List UInt8) (b : UInt8) :
    decode (bs++[b]) = 256*decode bs + b.toNat := by simp [decode]

/-- Encoding keeps a number modulo the width. -/
theorem decode_encode (k n : ℕ) : decode (encode k n) = n % 256^k := by
  induction k generalizing n with
  | zero => simp [encode,Nat.mod_one]
  | succ k ih =>
    rw [encode,decode_snoc,ih,UInt8.toNat_ofNat',pow_succ 256 k,Nat.mul_comm (256^k) 256,Nat.mod_mul]
    omega

theorem decode_encode_of_lt {k n : ℕ} (h : n < 256^k) : decode (encode k n) = n := by
  rw [decode_encode,Nat.mod_eq_of_lt h]

/-- Every byte string is the encoding of its value. -/
theorem encode_decode (bs : List UInt8) : encode bs.length (decode bs) = bs := by
  induction bs using List.reverseRecOn with
  | nil => rfl
  | append_singleton bs b ih =>
    have hdiv : (256*decode bs + b.toNat)/256 = decode bs := by
      have := b.toNat_lt
      omega
    have hbyte : UInt8.ofNat (256*decode bs + b.toNat) = b := by
      apply UInt8.toNat_inj.mp
      have := b.toNat_lt
      rw [UInt8.toNat_ofNat']
      omega
    simp only [List.length_append,List.length_singleton,encode,decode_snoc,hdiv,hbyte,ih]

theorem encode_mod (k n : ℕ) : encode k (n % 256^k) = encode k n := by
  have h := encode_decode (encode k n)
  rwa [encode_length,decode_encode] at h

theorem decode_lt (bs : List UInt8) : decode bs < 256^bs.length := by
  induction bs using List.reverseRecOn with
  | nil => simp
  | append_singleton bs b ih =>
    have := b.toNat_lt
    rw [decode_snoc,List.length_append,List.length_singleton,pow_succ]
    omega

end BigEndian
