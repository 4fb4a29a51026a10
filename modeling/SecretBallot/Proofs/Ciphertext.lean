import Mathlib
import SecretBallot.Ciphertext
import SecretBallot.Proofs.Group.Exponents

namespace SecretBallot

/-- A well-formed ciphertext is a pair of powers of the generator. -/
theorem Ciphertext.exists_eq_powG {group : Group} (hsafe : group.IsSafe) {ciphertext : Ciphertext}
    (hformed : ciphertext.isWellFormed group = true) :
    ∃ r d, ciphertext = ⟨group.powG r, group.powG d⟩ := by
  rw [isWellFormed, Bool.and_eq_true] at hformed
  obtain ⟨pad, data⟩ := ciphertext
  obtain ⟨r, _, rfl⟩ := Group.exists_powG_eq hsafe hformed.1
  obtain ⟨d, _, rfl⟩ := Group.exists_powG_eq hsafe hformed.2
  exact ⟨r, d, rfl⟩

/-- A product of well-formed ciphertexts is well-formed. -/
theorem Ciphertext.isWellFormed_combineAll {group : Group} {ciphertexts : List Ciphertext}
    (hformed : ∀ ciphertext ∈ ciphertexts, ciphertext.isWellFormed group = true) :
    (combineAll group ciphertexts).isWellFormed group = true := by
  simp only [isWellFormed, Bool.and_eq_true] at hformed ⊢
  rw [combineAll_eq]
  constructor
  · refine group.isMember_product fun pad hpad => ?_
    obtain ⟨ciphertext, hmem, rfl⟩ := List.mem_map.1 hpad
    exact (hformed ciphertext hmem).1
  · refine group.isMember_product fun data hdata => ?_
    obtain ⟨ciphertext, hmem, rfl⟩ := List.mem_map.1 hdata
    exact (hformed ciphertext hmem).2

namespace DecryptionKey

theorem group_of_fits {key : DecryptionKey} {publicKey : PublicKey}
    (hfits : key.fits publicKey = true) : key.group = publicKey.group := by
  rw [fits, Bool.and_eq_true, beq_iff_eq] at hfits
  exact hfits.1

/-- The equation by which `m` is what a ciphertext opens to. -/
def Opens (key : DecryptionKey) (ciphertext : Ciphertext) (m : Nat) : Prop :=
  m < key.group.q ∧ ciphertext.data =
    key.group.mul (powMod ciphertext.pad key.x key.group.p) (key.group.powG m)

instance (key : DecryptionKey) (ciphertext : Ciphertext) : DecidablePred (key.Opens ciphertext) :=
  fun _ => inferInstanceAs (Decidable (_ ∧ _))

/-- What a ciphertext opens to. -/
def plaintext (key : DecryptionKey) (ciphertext : Ciphertext) : Nat :=
  ((List.range key.group.q).find? fun m => decide (key.Opens ciphertext m)).getD 0

section Safe

variable {key : DecryptionKey} (hsafe : key.group.IsSafe)

include hsafe

theorem opens_powG_iff {r d m : Nat} : key.Opens ⟨key.group.powG r, key.group.powG d⟩ m ↔
    m < key.group.q ∧ (d : ZMod key.group.q) = r * key.x + m := by
  rw [Opens, Group.powMod_powG, Group.mul_powG, Group.powG_eq_powG_iff hsafe, Nat.cast_add,
    Nat.cast_mul]

theorem existsUnique_opens {ciphertext : Ciphertext}
    (hformed : ciphertext.isWellFormed key.group = true) : ∃! m, key.Opens ciphertext m := by
  have := NeZero.mk key.group.q_pos.ne'
  obtain ⟨r, d, rfl⟩ := Ciphertext.exists_eq_powG hsafe hformed
  refine ⟨((d : ZMod key.group.q) - r * key.x).val, ?_, fun m hm => ?_⟩
  · refine (opens_powG_iff hsafe).2 ⟨ZMod.val_lt _, ?_⟩
    rw [ZMod.natCast_zmod_val]
    ring
  · obtain ⟨hlt, hdata⟩ := (opens_powG_iff hsafe).1 hm
    rw [hdata, add_sub_cancel_left, ZMod.val_natCast_of_lt hlt]

theorem opens_plaintext {ciphertext : Ciphertext}
    (hformed : ciphertext.isWellFormed key.group = true) :
    key.Opens ciphertext (key.plaintext ciphertext) := by
  obtain ⟨m, hopens, _⟩ := existsUnique_opens hsafe hformed
  rw [plaintext]
  cases hfind : (List.range key.group.q).find? fun m => decide (key.Opens ciphertext m) with
  | none =>
    have hnone := List.find?_eq_none.1 hfind m (List.mem_range.2 hopens.1)
    simp [hopens] at hnone
  | some found =>
    simpa using List.find?_some hfind

theorem plaintext_eq {ciphertext : Ciphertext}
    (hformed : ciphertext.isWellFormed key.group = true) {m : Nat}
    (hopens : key.Opens ciphertext m) :
    key.plaintext ciphertext = m :=
  (existsUnique_opens hsafe hformed).unique (opens_plaintext hsafe hformed) hopens

/-- A list of well-formed ciphertexts, as powers of the generator that open to the plaintexts. -/
theorem exists_powG_ciphertexts {ciphertexts : List Ciphertext}
    (hformed : ∀ ciphertext ∈ ciphertexts, ciphertext.isWellFormed key.group = true) :
    ∃ rs ds : List Nat, ciphertexts.map (·.pad) = rs.map key.group.powG ∧
      ciphertexts.map (·.data) = ds.map key.group.powG ∧
      (ds.sum : ZMod key.group.q) = rs.sum * key.x + (ciphertexts.map key.plaintext).sum := by
  induction ciphertexts with
  | nil => exact ⟨[], [], rfl, rfl, by simp⟩
  | cons head tail ih =>
    obtain ⟨hhead, htail⟩ := List.forall_mem_cons.1 hformed
    obtain ⟨rs, ds, hpads, hdata, hsum⟩ := ih htail
    have hopens := opens_plaintext hsafe hhead
    obtain ⟨r, d, rfl⟩ := Ciphertext.exists_eq_powG hsafe hhead
    obtain ⟨_, hplain⟩ := (opens_powG_iff hsafe).1 hopens
    refine ⟨r :: rs, d :: ds, by simp [hpads], by simp [hdata], ?_⟩
    rw [List.sum_cons, List.sum_cons, List.map_cons, List.sum_cons, Nat.cast_add, Nat.cast_add,
      Nat.cast_add, hsum, hplain]
    ring

/-- Multiplying ciphertexts adds up what they encrypt. -/
theorem plaintext_combineAll {ciphertexts : List Ciphertext}
    (hformed : ∀ ciphertext ∈ ciphertexts, ciphertext.isWellFormed key.group = true) :
    key.plaintext (Ciphertext.combineAll key.group ciphertexts) =
      (ciphertexts.map key.plaintext).sum % key.group.q := by
  obtain ⟨rs, ds, hpads, hdata, hsum⟩ := exists_powG_ciphertexts hsafe hformed
  refine plaintext_eq hsafe (Ciphertext.isWellFormed_combineAll hformed) ?_
  rw [Ciphertext.combineAll_eq, hpads, hdata, Group.product_powG, Group.product_powG,
    opens_powG_iff hsafe, ZMod.natCast_mod]
  exact ⟨Nat.mod_lt _ key.group.q_pos, hsum⟩

end Safe

end DecryptionKey

namespace Ciphertext

/-- The search that has come to `m` finds a logarithm that is not smaller, if its steps suffice. -/
theorem searchFrom_powG {group : Group} (hsafe : group.IsSafe) {target : Nat}
    (htarget : target < group.q) {steps m : Nat} (hm : m ≤ target) :
    searchFrom group (group.powG target) steps m (group.powG m) =
      if target < m + steps then some target else none := by
  induction steps generalizing m with
  | zero =>
    have hnot : ¬ target < m + 0 := by omega
    rw [searchFrom, if_neg hnot]
  | succ steps ih =>
    have hlt : m < group.q := by omega
    have hfound : group.powG m = group.powG target ↔ m = target :=
      Group.powG_eq_powG_iff_of_lt hsafe hlt htarget
    rw [searchFrom]
    by_cases heq : m = target
    · have hreached : target < m + (steps + 1) := by omega
      rw [if_pos (hfound.2 heq), if_pos hreached, heq]
    · have hnext : m + 1 ≤ target := by omega
      have hpower : group.mul (group.powG m) group.g = group.powG (m + 1) := by
        rw [← Group.mul_powG, Group.powG_one]
      rw [if_neg (mt hfound.1 heq), hpower, ih hnext]
      have hiff : target < m + 1 + steps ↔ target < m + (steps + 1) := by omega
      simp only [hiff]

theorem search_powG {group : Group} (hsafe : group.IsSafe) {target : Nat}
    (htarget : target < group.q) (bound : Nat) :
    search group (group.powG target) bound =
      if target ≤ bound then .ok target else .error (.searchExhausted bound) := by
  have hfound : searchFrom group (group.powG target) (bound + 1) 0 (group.powG 0) =
      if target < 0 + (bound + 1) then some target else none :=
    searchFrom_powG hsafe htarget (Nat.zero_le target)
  rw [Group.powG_zero] at hfound
  rw [search, hfound]
  by_cases hbound : target ≤ bound
  · have hlt : target < 0 + (bound + 1) := by omega
    rw [if_pos hlt, if_pos hbound]
  · have hnot : ¬ target < 0 + (bound + 1) := by omega
    rw [if_neg hnot, if_neg hbound]

/-- Decryption finds what a ciphertext opens to exactly if it does not exceed the bound. -/
theorem decrypt_eq {key : DecryptionKey} (hsafe : key.group.IsSafe) {ciphertext : Ciphertext}
    (hformed : ciphertext.isWellFormed key.group = true) (bound : Nat) :
    decrypt key ciphertext bound =
      if key.plaintext ciphertext ≤ bound then .ok (key.plaintext ciphertext)
      else .error (.refused (.searchExhausted bound)) := by
  have hopens := DecryptionKey.opens_plaintext hsafe hformed
  have hensured : ensure (ciphertext.isWellFormed key.group) (.malformed .ciphertextOutside) =
      .ok () := ensure_of _ hformed
  generalize key.plaintext ciphertext = m at hopens ⊢
  obtain ⟨r, d, rfl⟩ := exists_eq_powG hsafe hformed
  obtain ⟨hlt, hdata⟩ := (DecryptionKey.opens_powG_iff hsafe).1 hopens
  have htarget : key.group.powG (key.group.subQ d (r * key.x)) = key.group.powG m := by
    rw [Group.powG_eq_powG_iff hsafe, Group.cast_subQ, Nat.cast_mul, hdata, add_sub_cancel_left]
  rw [decrypt, hensured, lift_ok, ok_bind, DecryptionKey.unmask, Group.pow_powG, ok_bind,
    Group.div_powG hsafe, ok_bind, htarget, search_powG hsafe hlt]
  split <;> simp

end Ciphertext

end SecretBallot
