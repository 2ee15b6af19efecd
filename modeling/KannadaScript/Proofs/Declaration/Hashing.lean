import KannadaScript.Proofs.Declaration.History

/-!
# The buckets of names

The hash of a name takes in one byte after the other, in 64-bit arithmetic that wraps around at
every step. This comes to the same as wrapping around once, at the end, the value of a polynomial at
32 whose coefficients are the bytes, the last one being constant (`Table.toNat_foldl_mul_add`). The
fold is followed from any value it may have reached, so that the induction along the bytes needs no
bound on what came before.

Since 32 is a power of two, the high powers vanish. A modulus that divides the power `32 ^ n` leaves
nothing of the polynomial but its last `n` coefficients (`Table.polynomial_mod_rtake`). This is so
for the 64 bits of the hash after 13 bytes, and for 128 buckets after two: there the last two bytes
of a name decide, and names that end alike share a bucket.

That buckets are crowded in this way costs nothing but the look of a dump. What is found under a
name is told by the name and not by its bucket (`table_recalls_history`).

Main statement: `bucket_is_polynomial`.
-/

namespace KannadaScript

namespace Table

/-! ### The polynomial of a name -/

/-- The value at 32 of the polynomial with the given coefficients, the constant one last. -/
def polynomial (bytes : List UInt8) : Nat :=
  ∑ i : Fin bytes.length, bytes[i].toNat * 32 ^ (bytes.length - 1 - i)

/-- The first byte has the highest power. -/
theorem polynomial_cons (b : UInt8) (bytes : List UInt8) :
    polynomial (b :: bytes) = b.toNat * 32 ^ bytes.length + polynomial bytes := by
  refine (Fin.sum_univ_succ _).trans (congrArg₂ _ rfl (Finset.sum_congr rfl fun i _ ↦ ?_))
  have hpower : (b :: bytes).length - 1 - i.succ = bytes.length - 1 - i := by
    rw [List.length_cons, Fin.val_succ]
    omega
  rw [hpower]
  rfl

/-- Bytes behind others push these up by their number. -/
theorem polynomial_append (bytes bytes' : List UInt8) :
    polynomial (bytes ++ bytes') =
      polynomial bytes * 32 ^ bytes'.length + polynomial bytes' := by
  induction bytes with
  | nil => simp [polynomial]
  | cons b bytes ih =>
    rw [List.cons_append, polynomial_cons, polynomial_cons, ih, List.length_append]
    ring

/-- **Only the end counts.** What stands before the last `n` bytes is multiplied by `32 ^ n`. -/
theorem polynomial_mod_rtake {m n : Nat} (h : m ∣ 32 ^ n) (bytes : List UInt8) :
    polynomial (bytes.rtake n) % m = polynomial bytes % m := by
  rcases Nat.le_total bytes.length n with hshort | hlong
  · rw [List.rtake, Nat.sub_eq_zero_of_le hshort, List.drop_zero]
  · have hsplit : bytes.take (bytes.length - n) ++ bytes.rtake n = bytes :=
      List.take_append_drop _ _
    have hlength : (bytes.rtake n).length = n := by
      rw [List.rtake, List.length_drop]
      omega
    have hvanishes : polynomial (bytes.take (bytes.length - n)) * 32 ^ n % m = 0 :=
      Nat.mod_eq_zero_of_dvd (h.mul_left _)
    conv_rhs => rw [← hsplit, polynomial_append, hlength, Nat.add_mod, hvanishes, zero_add]
    rw [Nat.mod_mod]

/-- Modulo a divisor of a power of 32 only the ending of a name counts. -/
theorem polynomial_mod_congr {m n : Nat} (h : m ∣ 32 ^ n) {bytes bytes' : List UInt8}
    (hend : bytes.rtake n = bytes'.rtake n) : polynomial bytes % m = polynomial bytes' % m := by
  rw [← polynomial_mod_rtake h bytes, hend, polynomial_mod_rtake h bytes']

/-! ### The hash -/

/-- **Step.** One byte more. -/
theorem toNat_mul_add_byte (h : UInt64) (b : UInt8) :
    (h * 32 + b.toUInt64).toNat = (h.toNat * 32 + b.toNat) % 2 ^ 64 := by
  rw [UInt64.toNat_add, UInt64.toNat_mul, UInt8.toNat_toUInt64, Nat.mod_add_mod]
  rfl

/-- **Run.** To wrap around at every step is to wrap around once. -/
theorem toNat_foldl_mul_add (h : UInt64) (bytes : List UInt8) :
    (bytes.foldl (fun h b ↦ h * 32 + b.toUInt64) h).toNat =
      (h.toNat * 32 ^ bytes.length + polynomial bytes) % 2 ^ 64 := by
  induction bytes generalizing h with
  | nil => simp [polynomial, Nat.mod_eq_of_lt h.toNat_lt]
  | cons b bytes ih =>
    have hnext : h.toNat * 32 ^ (b :: bytes).length + polynomial (b :: bytes) =
        (h.toNat * 32 + b.toNat) * 32 ^ bytes.length + polynomial bytes := by
      rw [polynomial_cons, List.length_cons]
      ring
    rw [List.foldl_cons, ih, toNat_mul_add_byte, hnext]
    exact ((Nat.mod_modEq _ _).mul_right _).add_right _

/-- The hash is the polynomial, wrapped around once. -/
theorem toNat_hash (bytes : List UInt8) : (hash bytes).toNat = polynomial bytes % 2 ^ 64 := by
  rw [hash, toNat_foldl_mul_add]
  simp

/-- The bucket of a name, whatever has been declared. -/
theorem bucketOf_ofHistory_eq (buckets : Nat) (history : List Declaration) (x : String) :
    (ofHistory buckets history).bucketOf x =
      polynomial (Text.bytes x) % 2 ^ 64 % max buckets 1 := by
  rw [bucketOf, toNat_hash, bucketCount_ofHistory]

end Table

/-- **Buckets by polynomial.** In a table for which any number of buckets was asked, whatever has
been declared in it, the bucket of a name is the polynomial of its bytes at 32, reduced to 64 bits
and then to the buckets that there are. Names that agree in their last 13 bytes share a bucket, and
with the default number of buckets the last two bytes are enough. -/
theorem bucket_is_polynomial (buckets : Nat) (history : List Declaration) (x : String) :
    let t := Table.ofHistory buckets history
    let bytes := Text.bytes x
    t.bucketOf x =
      (∑ i : Fin bytes.length, bytes[i].toNat * 32 ^ (bytes.length - 1 - i)) % 2 ^ 64 %
        max buckets 1 ∧
    t.bucketOf x < t.bucketCount ∧
    ∀ y : String,
      ((Text.bytes y).rtake 13 = bytes.rtake 13 → t.bucketOf y = t.bucketOf x) ∧
      (buckets = Table.defaultBuckets → (Text.bytes y).rtake 2 = bytes.rtake 2 →
        t.bucketOf y = t.bucketOf x) := by
  intro t bytes
  have hbucket (z : String) := Table.bucketOf_ofHistory_eq buckets history z
  refine ⟨hbucket x, ?_, fun y ↦ ⟨fun hend ↦ ?_, fun hdefault hend ↦ ?_⟩⟩
  · rw [hbucket, Table.bucketCount_ofHistory]
    exact Nat.mod_lt _ (by omega)
  · -- `32 ^ 13` is `2 ^ 65`
    rw [hbucket, hbucket, Table.polynomial_mod_congr (by decide) hend]
  · -- `32 ^ 2` is `2 ^ 10`, and 128 divides both this and the number of hashes
    have hcount : max buckets 1 = 128 := by rw [hdefault]; rfl
    rw [hbucket, hbucket, hcount, Nat.mod_mod_of_dvd _ (by decide),
      Nat.mod_mod_of_dvd _ (by decide), Table.polynomial_mod_congr (by decide) hend]

/-- Long names that differ only at the start share one of 1000 buckets, short ones one of 128. -/
theorem bucket_is_polynomial_endings :
    let a : Declaration := ⟨"ಕ", .var, 1⟩
    ((Text.bytes "yabcdefghijklm").rtake 13 = (Text.bytes "xabcdefghijklm").rtake 13 ∧
      (Table.ofHistory 1000 [a]).bucketOf "yabcdefghijklm" =
        (Table.ofHistory 1000 [a]).bucketOf "xabcdefghijklm") ∧
    ((Text.bytes "ಕab").rtake 2 = (Text.bytes "ab").rtake 2 ∧
      (Table.ofHistory 128 [a]).bucketOf "ಕab" = (Table.ofHistory 128 [a]).bucketOf "ab") := by
  intro a
  have hlong : (Text.bytes "yabcdefghijklm").rtake 13 = (Text.bytes "xabcdefghijklm").rtake 13 := by
    decide +kernel
  have hshort : (Text.bytes "ಕab").rtake 2 = (Text.bytes "ab").rtake 2 := by decide +kernel
  exact ⟨⟨hlong, ((bucket_is_polynomial 1000 [a] _).2.2 _).1 hlong⟩,
    ⟨hshort, ((bucket_is_polynomial 128 [a] _).2.2 _).2 rfl hshort⟩⟩

end KannadaScript
