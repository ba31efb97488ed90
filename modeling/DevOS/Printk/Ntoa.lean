import DevOS.Lib.Loop
import DevOS.Lib.Region
import DevOS.Printk.Integer

/-!
# Printk — `_ntoa` in its buffer

`_ntoa` writes downwards from the end of `ctx->ntoa`. Here it does so by its
pointer, an offset into the buffer that could go below it, and with the branch
for a value that does not fit. The bytes from the pointer it returns are the
digits of `Printk.Format`, they are a numeral for the value, and there is always
room.
-/

namespace DevOS.Printk

open DevOS.Lib

/-! ## Numerals -/

/-- What a character is worth as a digit. -/
def digitValue (c : UInt8) : Option Nat :=
  if '0'.toUInt8 ≤ c ∧ c ≤ '9'.toUInt8 then some (c.toNat - '0'.toNat)
  else if 'a'.toUInt8 ≤ c ∧ c ≤ 'f'.toUInt8 then some (c.toNat - 'a'.toNat + 10)
  else if 'A'.toUInt8 ≤ c ∧ c ≤ 'F'.toUInt8 then some (c.toNat - 'A'.toNat + 10)
  else none

/-- The value of characters as digits, the highest first. -/
def positional (base : Nat) (cs : List UInt8) : Nat :=
  cs.foldl (fun n c => n * base + (digitValue c).getD 0) 0

/-- **A numeral for `n`**: digits of the base, without a 0 in front, that are
worth `n`; for 0 one 0. -/
structure IsNumeral (base : Nat) (cs : List UInt8) (n : Nat) : Prop where
  digits : ∀ c ∈ cs, ∃ d < base, digitValue c = some d
  zero : n = 0 → cs = ['0'.toUInt8]
  head : n ≠ 0 → ∃ c cs', cs = c :: cs' ∧ c ≠ '0'.toUInt8
  value : positional base cs = n

theorem digitValue_digit (upper : Bool) {d : Nat} (h : d < 16) :
    digitValue (digit upper d) = some d := by
  have hall : ∀ upper : Bool, ∀ d < 16, digitValue (digit upper d) = some d := by decide
  exact hall upper d h

/-- Horner's rule: the digits of a list that starts with the lowest. -/
theorem positional_digits (upper : Bool) (base : Nat) : ∀ (ds : List Nat), (∀ d ∈ ds, d < 16) →
    positional base (ds.reverse.map (digit upper)) = Nat.ofDigits base ds := by
  intro ds
  induction ds with
  | nil => intro _; rfl
  | cons d ds ih =>
      intro h
      have hd := digitValue_digit upper (h d List.mem_cons_self)
      have htail := ih fun d' hd' => h d' (List.mem_cons_of_mem _ hd')
      rw [positional] at htail ⊢
      rw [List.reverse_cons, List.map_append, List.foldl_append, htail, Nat.ofDigits_cons]
      simp only [List.map_cons, List.map_nil, List.foldl_cons, List.foldl_nil, hd,
        Option.getD_some]
      rw [Nat.mul_comm, Nat.add_comm]

/-- **The digits that `_ntoa` is for** are a numeral. -/
theorem ntoa_isNumeral (upper : Bool) {base val : Nat} (hlow : 8 ≤ base) (hhigh : base ≤ 16)
    (hval : val < 2 ^ 64) : IsNumeral base (ntoa val base upper) val := by
  rw [ntoa_eq upper hlow hval]
  by_cases hzero : val = 0
  · rw [if_pos hzero, hzero]
    refine ⟨?_, fun _ => rfl, fun h => absurd rfl h, Nat.zero_mul base⟩
    intro c hc
    rw [List.mem_singleton.mp hc]
    exact ⟨0, by omega, rfl⟩
  · have hlt : ∀ d ∈ Nat.digits base val, d < base := fun d hd =>
      Nat.digits_lt_base (by omega) hd
    rw [if_neg hzero]
    refine ⟨?_, fun h => absurd h hzero, fun _ => ?_, ?_⟩
    · intro c hc
      obtain ⟨d, hd, rfl⟩ := List.mem_map.mp hc
      have hd' := hlt d (List.mem_reverse.mp hd)
      exact ⟨d, hd', digitValue_digit upper (by omega)⟩
    · have hhead := ntoa_head_ne upper hlow hhigh hval hzero
      have hlen := (ntoa_length upper hlow hval).1
      rw [ntoa_eq upper hlow hval, if_neg hzero] at hhead hlen
      obtain ⟨c, cs', hcs⟩ := List.exists_cons_of_length_pos hlen
      refine ⟨c, cs', hcs, fun hc => hhead ?_⟩
      rw [hcs, hc]
      rfl
    · rw [positional_digits upper base _ fun d hd => Nat.lt_of_lt_of_le (hlt d hd) hhigh,
        Nat.ofDigits_digits]

/-! ## The program -/

/-- `p` (from `ctx->ntoa`), `val` and the buffer in the loop. -/
structure NtoaState where
  ntoa : Region UInt8
  p : Int
  val : UInt64

/-- A round of `while (val && p > ctx->ntoa)`. -/
def ntoaBody (upper : Bool) (base : UInt32) (s : NtoaState) : NtoaState ⊕ NtoaState :=
  if s.val ≠ 0 ∧ s.p > 0 then
    .inl ⟨s.ntoa.store (s.p - 1) (digit upper (s.val % base.toUInt64).toNat), s.p - 1,
      s.val / base.toUInt64⟩
  else .inr s

/-- The buffer that `_ntoa` leaves, the pointer it returns, and whether it has
written `?`. -/
structure NtoaResult where
  ntoa : Region UInt8
  p : Int
  truncated : Bool

/-- The characters from the pointer to the end of the buffer. -/
def NtoaResult.chars (r : NtoaResult) : List UInt8 :=
  (countUp r.p ntoaBufferSize).map r.ntoa.cells

/-- `_ntoa(ctx, val, base, upper)` in so many rounds. -/
def ntoaAt (upper : Bool) (base : UInt32) (fuel : Nat) (val : UInt64) (ntoa : Region UInt8) :
    Option NtoaResult :=
  if val = 0 then
    some ⟨ntoa.store (ntoaBufferSize - 1) '0'.toUInt8, ntoaBufferSize - 1, false⟩
  else
    (iterate (ntoaBody upper base) fuel ⟨ntoa, ntoaBufferSize, val⟩).map fun s =>
      if s.val ≠ 0 then ⟨s.ntoa.store s.p '?'.toUInt8, s.p, true⟩ else ⟨s.ntoa, s.p, false⟩

/-! ## The loop -/

section Loop

variable {upper : Bool} {base : UInt32}

/-- **The pointer stays in the buffer**, whatever the loop has done. -/
theorem ntoaBody_within {s s' : NtoaState} (h : Rounds (ntoaBody upper base) s s')
    (hs : 0 ≤ s.p ∧ s.p ≤ ntoaBufferSize) : 0 ≤ s'.p ∧ s'.p ≤ ntoaBufferSize := by
  induction h with
  | refl => exact hs
  | next _ hb ih =>
      rw [ntoaBody] at hb
      split at hb
      · rename_i hgo
        cases hb
        dsimp only
        omega
      · cases hb

/-- What has been written: as many characters as the pointer has moved, each
between it and the end. -/
structure Written (m : Region UInt8) (p : Int) (digits : List UInt8) : Prop where
  chars : (countUp p ntoaBufferSize).map m.cells = digits
  stores : ∀ k ∈ m.stores, p ≤ k ∧ k < ntoaBufferSize
  count : (m.stores.length : Int) = ntoaBufferSize - p

theorem written_start (before : Int → UInt8) : Written (.start before) ntoaBufferSize [] :=
  ⟨rfl, (fun _ h => nomatch h), rfl⟩

/-- **A character** below the others. -/
theorem Written.store {m : Region UInt8} {p : Int} {digits : List UInt8} (h : Written m p digits)
    (hp : p ≤ ntoaBufferSize) (c : UInt8) : Written (m.store (p - 1) c) (p - 1) (c :: digits) := by
  refine ⟨?_, ?_, ?_⟩
  · have hcount := countUp_cons (a := p - 1) (b := ntoaBufferSize) (by omega)
    have hp' : p - 1 + 1 = p := by omega
    have hkeep : ∀ k ∈ countUp p ntoaBufferSize, (m.store (p - 1) c).cells k = m.cells k := by
      intro k hk
      have hk' := mem_countUp.mp hk
      rw [Region.store_cells, if_neg (by omega)]
    rw [hcount, hp', List.map_cons, Region.store_cells, if_pos rfl, List.map_congr_left hkeep,
      h.chars]
  · intro k hk
    rcases Region.mem_store.mp hk with hk | hk
    · have := h.stores k hk
      omega
    · omega
  · have hcount := h.count
    simp only [Region.store, List.length_append, List.length_singleton]
    omega

/-- **The loop**, by induction on the room that is left, is the one over lists. -/
theorem ntoaBody_loop (upper : Bool) (base : UInt32) : ∀ (space : Nat) {s : NtoaState}
    {digits : List UInt8}, s.p = space →
    space ≤ ntoaBufferSize → Written s.ntoa s.p digits →
    ∃ s', iterate (ntoaBody upper base) (space + 1) s = some s' ∧
      Written s'.ntoa s'.p (ntoaLoop upper base.toNat space s.val.toNat digits).1 ∧
      s'.val.toNat = (ntoaLoop upper base.toNat space s.val.toNat digits).2 := by
  intro space
  induction space with
  | zero =>
      intro s digits hp _ h
      refine ⟨s, iterate_done ?_ 0, h, rfl⟩
      rw [ntoaBody, if_neg fun hgo => by omega]
  | succ space ih =>
      intro s digits hp hle h
      rw [ntoaLoop]
      by_cases hval : s.val = 0
      · have hzero : s.val.toNat = 0 := by rw [hval]; rfl
        refine ⟨s, iterate_done ?_ _, ?_, ?_⟩
        · rw [ntoaBody, if_neg fun hgo => hgo.1 hval]
        · rw [if_pos hzero]
          exact h
        · rw [if_pos hzero]
      · have hne : ¬ s.val.toNat = 0 := fun hc => hval (UInt64.toNat.inj hc)
        have hbody : ntoaBody upper base s =
            .inl ⟨s.ntoa.store (s.p - 1) (digit upper (s.val % base.toUInt64).toNat), s.p - 1,
              s.val / base.toUInt64⟩ := by
          rw [ntoaBody, if_pos ⟨hval, by omega⟩]
        have hmod : (s.val % base.toUInt64).toNat = s.val.toNat % base.toNat := by
          rw [UInt64.toNat_mod, UInt32.toNat_toUInt64]
        have hdiv : (s.val / base.toUInt64).toNat = s.val.toNat / base.toNat := by
          rw [UInt64.toNat_div, UInt32.toNat_toUInt64]
        rw [if_neg hne, iterate_next hbody, ← hmod, ← hdiv]
        exact ih (by dsimp only; omega) (by omega) (h.store (by omega) _)

/-- **`_ntoa` by its pointer** comes to an end, with the digits that the one over
lists gives, and without a `?`. -/
theorem ntoaAt_eq (upper : Bool) {base : UInt32} (hbase : 8 ≤ base.toNat) (val : UInt64)
    (before : Int → UInt8) : ∃ r,
      ntoaAt upper base (ntoaBufferSize + 1) val (.start before) = some r ∧
      Written r.ntoa r.p (ntoa val.toNat base.toNat upper) ∧ r.truncated = false := by
  rw [ntoaAt]
  by_cases hval : val = 0
  · rw [if_pos hval, hval]
    exact ⟨_, rfl, (written_start before).store (Int.le_refl _) _, rfl⟩
  · have hne : ¬ val.toNat = 0 := fun hc => hval (UInt64.toNat.inj hc)
    have hlen : (Nat.digits base.toNat val.toNat).length ≤ ntoaBufferSize :=
      Nat.le_trans (digits_length_le hbase val.toNat_lt) (by decide)
    obtain ⟨s, hs, hwritten, hrest⟩ := ntoaBody_loop upper base ntoaBufferSize
      (s := ⟨.start before, ntoaBufferSize, val⟩) rfl (Nat.le_refl _) (written_start before)
    have hloop := ntoaLoop_eq upper (by omega) _ _ [] hlen
    dsimp only at hwritten hrest
    rw [hloop] at hwritten hrest
    have hdone : s.val = 0 := UInt64.toNat.inj hrest
    rw [if_neg hval, hs, Option.map_some, if_neg fun hc => hc hdone, ntoa, if_neg hne, hloop]
    exact ⟨_, rfl, hwritten, rfl⟩

end Loop

/-- **`_ntoa` is faithful**: for every 64-bit value in base 8, 10 or 16 the
characters from the pointer that it returns to the end of the buffer are a
numeral for the value. It writes 22 bytes at most, its pointer stays in the
buffer all the time, and there is never a `?`. -/
theorem ntoa_faithful (upper : Bool) (base : UInt32) (hbase : base = 8 ∨ base = 10 ∨ base = 16)
    (val : UInt64) (before : Int → UInt8) :
    ∃ fuel r, ntoaAt upper base fuel val (.start before) = some r ∧
      IsNumeral base.toNat r.chars val.toNat ∧ (0 ≤ r.p ∧ r.p < 24) ∧
      (∀ k ∈ r.ntoa.stores, r.p ≤ k ∧ k < 24) ∧ r.ntoa.stores.length ≤ 22 ∧
      r.truncated = false ∧
      ∀ s, Rounds (ntoaBody upper base) ⟨.start before, 24, val⟩ s → 0 ≤ s.p ∧ s.p ≤ 24 := by
  have hbounds : 8 ≤ base.toNat ∧ base.toNat ≤ 16 := by
    rcases hbase with rfl | rfl | rfl <;> decide
  obtain ⟨r, hr, hwritten, htrunc⟩ := ntoaAt_eq upper hbounds.1 val before
  have hnum := ntoa_isNumeral upper hbounds.1 hbounds.2 val.toNat_lt
  have hlen := ntoa_length upper hbounds.1 val.toNat_lt
  have hchars : r.chars = ntoa val.toNat base.toNat upper := hwritten.chars
  have hcount : r.chars.length = (24 - r.p).toNat := by
    rw [NtoaResult.chars, List.length_map, countUp, List.length_map, List.length_range]
    rfl
  have hstores : (r.ntoa.stores.length : Int) = 24 - r.p := hwritten.count
  rw [← hchars] at hnum hlen
  exact ⟨_, r, hr, hnum, by omega, hwritten.stores, by omega, htrunc,
    fun s hs => ntoaBody_within hs ⟨(by decide : (0 : Int) ≤ 24), Int.le_refl 24⟩⟩

/-- The longest numeral there is. -/
theorem ntoa_faithful_octal : ∃ fuel r,
    ntoaAt false 8 fuel 0xFFFFFFFFFFFFFFFF (.start fun _ => 0) = some r ∧
    IsNumeral 8 r.chars 0xFFFFFFFFFFFFFFFF ∧ (0 ≤ r.p ∧ r.p < 24) ∧
    (∀ k ∈ r.ntoa.stores, r.p ≤ k ∧ k < 24) ∧ r.ntoa.stores.length ≤ 22 ∧ r.truncated = false ∧
    ∀ s, Rounds (ntoaBody false 8) ⟨.start fun _ => 0, 24, 0xFFFFFFFFFFFFFFFF⟩ s →
      0 ≤ s.p ∧ s.p ≤ 24 :=
  ntoa_faithful false 8 (.inl rfl) 0xFFFFFFFFFFFFFFFF fun _ => 0

example : (ntoaAt false 8 25 0xFFFFFFFFFFFFFFFF (.start fun _ => 0)).map NtoaResult.chars =
    some (literal "1777777777777777777777") := by decide +kernel

end DevOS.Printk
