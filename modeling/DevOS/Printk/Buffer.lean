import DevOS.Printk.Format
import Mathlib.Data.List.FinRange
import Mathlib.Data.List.Count

/-!
# Printk — buffering is transparent

The formatter over `printk_context_t`, which passes its bytes on to the
registered sinks 64 at a time, against the same formatter over a list. Every
piece of the formatter keeps related outputs related (`Simulates`), so the
only thing to check about the buffer is `_putc`.
-/

namespace DevOS.Printk

open DevOS.Lib

/-! ## The formatter under simulation -/

section Simulation

variable {κ κ' μ : Type} {o : Output UInt8 κ} {o' : Output UInt8 κ'} {R : κ → κ' → Prop}
  {k : κ} {k' : κ'}

theorem putwc_sim (h : o.Simulates o' R) (wc : Int) (hk : R k k') :
    R (putwc o k wc) (putwc o' k' wc) := by
  unfold putwc
  dsimp only
  repeat' split
  · exact h.put _ hk
  · exact h.puts _ hk
  · exact h.puts _ hk
  · exact h.puts _ hk
  · exact hk

theorem pad_sim (h : o.Simulates o' R) (c : UInt8) (n : Int) (hk : R k k') :
    R (pad o k c n) (pad o' k' c n) := h.puts _ hk

theorem str_sim (h : o.Simulates o' R) (s : List UInt8) (len : Int) (hk : R k k') :
    R (str o k s len) (str o' k' s len) := h.puts _ hk

theorem wstr_sim (h : o.Simulates o' R) (s : List Int) (len : Int) (hk : R k k') :
    R (wstr o k s len) (wstr o' k' s len) := by
  have hall : ∀ (l : List Int) {k : κ} {k' : κ'}, R k k' →
      R (l.foldl (putwc o) k) (l.foldl (putwc o') k') := by
    intro l
    induction l with
    | nil => intro k k' hk; exact hk
    | cons wc l ih => intro k k' hk; exact ih (putwc_sim h wc hk)
  exact hall _ hk

/-- A piece that may be left out. -/
theorem ite_sim (c : Prop) [Decidable c] {a b : κ} {a' b' : κ'} (ha : R a a') (hb : R b b') :
    R (if c then a else b) (if c then a' else b') := by
  split
  · exact ha
  · exact hb

theorem putPrefix_sim (h : o.Simulates o' R) (f : IntegerField) (hk : R k k') :
    R (putPrefix o f k) (putPrefix o' f k') :=
  ite_sim _ (ite_sim _ (h.put _ (h.put _ hk)) (h.put _ hk)) hk

theorem integer_sim (h : o.Simulates o' R) (isSigned : Bool) (base : Nat) (flags : Flags)
    (width precision : Int) (len : Length) (arg : UInt64) (hk : R k k') :
    R (integer o k isSigned base flags width precision len arg)
      (integer o' k' isSigned base flags width precision len arg) := by
  unfold integer
  generalize integerField isSigned base flags width precision len arg = f
  have hlead : R (if !f.flags.leftJustify then pad o k ' '.toUInt8 f.padN else k)
      (if !f.flags.leftJustify then pad o' k' ' '.toUInt8 f.padN else k') :=
    ite_sim _ (pad_sim h _ _ hk) hk
  have hsign := ite_sim (f.sign ≠ 0) (h.put f.sign hlead) hlead
  have hdigits := str_sim h f.nstr f.nlen
    (pad_sim h '0'.toUInt8 f.zeroN (putPrefix_sim h f hsign))
  exact ite_sim _ (pad_sim h _ _ hdigits) hdigits

theorem justified_sim (h : o.Simulates o' R) (flags : Flags) (n : Int) {piece : κ → κ}
    {piece' : κ' → κ'} (hpiece : ∀ {k k'}, R k k' → R (piece k) (piece' k')) (hk : R k k') :
    R (justified o flags n piece k) (justified o' flags n piece' k') := by
  have hpiece' := hpiece (ite_sim (!flags.leftJustify ∧ n > 0) (pad_sim h ' '.toUInt8 n hk) hk)
  exact ite_sim _ (pad_sim h _ n hpiece') hpiece'

theorem convertChar_sim (h : o.Simulates o' R) (sp : Spec) (arg : UInt64) (hk : R k k') :
    R (convertChar o sp arg k) (convertChar o' sp arg k') := by
  unfold convertChar
  refine justified_sim h _ _ (fun hk => ?_) hk
  split
  · exact putwc_sim h _ hk
  · exact h.put _ hk

theorem convertString_sim (h : o.Simulates o' R) (mem : Memory μ) (sp : Spec) (arg : UInt64)
    (m : μ) (hk : R k k') :
    R (convertString o mem sp arg m k) (convertString o' mem sp arg m k') := by
  unfold convertString
  split
  · exact justified_sim h _ _ (fun hk => wstr_sim h _ _ hk) hk
  · exact justified_sim h _ _ (fun hk => str_sim h _ _ hk) hk

theorem convertPointer_sim (h : o.Simulates o' R) (sp : Spec) (arg : UInt64) (hk : R k k') :
    R (convertPointer o sp arg k) (convertPointer o' sp arg k') :=
  justified_sim h _ _ (fun hk => str_sim h _ _ (pad_sim h _ _ (str_sim h _ _ hk))) hk

/-- Two calls in step: related outputs, the same arguments and memory. -/
structure InStep (R : κ → κ' → Prop) (s : Printer κ μ) (s' : Printer κ' μ) : Prop where
  out : R s.out s'.out
  args : s.args = s'.args
  mem : s.mem = s'.mem

theorem InStep.ite (c : Prop) [Decidable c] {s t : Printer κ μ} {s' t' : Printer κ' μ}
    (hs : InStep R s s') (ht : InStep R t t') :
    InStep R (if c then s else t) (if c then s' else t') := by
  split
  · exact hs
  · exact ht

theorem convert_sim (h : o.Simulates o' R) (mem : Memory μ) (c : UInt8) (sp : Spec)
    (echo : List UInt8) {s : Printer κ μ} {s' : Printer κ' μ} (hs : InStep R s s') :
    InStep R (convert o mem c sp echo s) (convert o' mem c sp echo s') := by
  obtain ⟨hout, hargs, hmem⟩ := hs
  have hint := fun isSigned base flags => integer_sim h isSigned base flags sp.width sp.precision
    sp.length (s'.args.headD 0) hout
  unfold convert
  rw [hargs, hmem, h.len hout]
  -- the integer conversions
  refine InStep.ite _ ⟨hint _ _ _, rfl, rfl⟩ (InStep.ite _ ⟨hint _ _ _, rfl, rfl⟩
    (InStep.ite _ ⟨hint _ _ _, rfl, rfl⟩ (InStep.ite _ ⟨hint _ _ _, rfl, rfl⟩
      (InStep.ite _ ⟨hint _ _ _, rfl, rfl⟩ ?_))))
  -- `c`, `s`, `p`, `n` and the echo
  refine InStep.ite _ ⟨convertChar_sim h _ _ hout, rfl, rfl⟩
    (InStep.ite _ ⟨convertString_sim h _ _ _ _ hout, rfl, rfl⟩
      (InStep.ite _ ⟨convertPointer_sim h _ _ hout, rfl, rfl⟩
        (InStep.ite _ ⟨hout, rfl, rfl⟩ ⟨?_, rfl, rfl⟩)))
  dsimp only
  exact str_sim h echo (int32 echo.length) hout

/-- **The formatter under simulation**: on related outputs it stays in step to
the end. -/
theorem formatLoop_sim (h : o.Simulates o' R) (mem : Memory μ) :
    ∀ (fuel : Nat) (fmt : List UInt8) {s : Printer κ μ} {s' : Printer κ' μ}, InStep R s s' →
    InStep R (formatLoop o mem fuel fmt s) (formatLoop o' mem fuel fmt s') := by
  intro fuel
  induction fuel with
  | zero => intro fmt s s' hs; exact hs
  | succ fuel ih =>
      intro fmt s s' hs
      rw [formatLoop, formatLoop, hs.args]
      split
      · exact hs
      · split
        · exact ih _ ⟨h.put _ hs.out, rfl, hs.mem⟩
        · split
          · exact ih _ ⟨h.put _ hs.out, rfl, hs.mem⟩
          · generalize parseSpec fmt.tail s'.args = r
            dsimp only
            split
            · exact ⟨hs.out, rfl, hs.mem⟩
            · exact ih _ (convert_sim h mem _ _ _ ⟨hs.out, rfl, hs.mem⟩)

end Simulation

/-! ## The buffer -/

/-- `PRINTK_BUFFER_SIZE`. -/
def printkBufferSize : Nat := 64

/-- `MAX_SINKS`. -/
def maxSinks : Nat := 8

/-- `printk_sink_t`; its `write` is told apart by the slot it is in. -/
structure PrintkSink where
  name : Fin 8 → UInt8

/-- `sinks[i].name[0]`. -/
def PrintkSink.present (s : PrintkSink) : Bool := s.name 0 ≠ 0

/-- A call of `sinks[sink].write(level, str, n)`. -/
structure Write where
  sink : Fin maxSinks
  level : Int
  chunk : List UInt8
deriving DecidableEq, Repr

/-- `printk_context_t`, with the first `buf_len` bytes of `buffer`, and the
calls made to sinks so far. -/
structure Context where
  buffer : List UInt8
  level : Int
  len : Int
  writes : List Write

section Buffer

variable (sinks : Fin maxSinks → PrintkSink)

/-- The loop over the sinks: one call for each that is present. -/
def deliver (level : Int) (chunk : List UInt8) : List Write :=
  ((List.finRange maxSinks).filter fun i => (sinks i).present).map fun i => ⟨i, level, chunk⟩

/-- `_flush(ctx)`. -/
def flush (ctx : Context) : Context :=
  if ctx.buffer.length = 0 then ctx
  else
    let chunk :=
      if ctx.buffer.length > printkBufferSize then ctx.buffer.take printkBufferSize
      else ctx.buffer
    { ctx with writes := ctx.writes ++ deliver sinks ctx.level chunk, buffer := [] }

/-- `_putc(ctx, c)`. -/
def putc (ctx : Context) (c : UInt8) : Context :=
  let ctx := if ctx.buffer.length ≥ printkBufferSize then flush sinks ctx else ctx
  { ctx with buffer := ctx.buffer ++ [c], len := int32 (ctx.len + 1) }

/-- The context as an output. -/
def buffered : Output UInt8 Context := ⟨putc sinks, Context.len⟩

/-- The unbuffered output: each byte is appended to a list. -/
def unbuffered : Output UInt8 (List UInt8) := ⟨fun out c => out ++ [c], fun out => int32 out.length⟩

theorem puts_unbuffered (out xs : List UInt8) : unbuffered.puts out xs = out ++ xs := by
  induction xs generalizing out with
  | nil => exact (List.append_nil out).symm
  | cons x xs ih =>
      rw [Output.puts, List.foldl_cons]
      exact (ih _).trans (by simp [unbuffered])

variable {μ : Type} (mem : Memory μ)

/-- `vprintkl(level, fmt, args)`: the return value, and the context and memory
it leaves. `none` is a `NULL` format. -/
def vprintkl (level : Int) (fmt : Option (List UInt8)) (args : List UInt64) (m : μ) :
    Int × Context × μ :=
  let ctx : Context := ⟨[], level, 0, []⟩
  match fmt with
  | none => (0, ctx, m)
  | some fmt =>
      let s := format (buffered sinks) mem fmt ⟨ctx, args, m⟩
      let ctx := flush sinks s.out
      (ctx.len, ctx, s.mem)

/-- The byte string and the memory the unbuffered formatter ends with. -/
def plain (fmt : Option (List UInt8)) (args : List UInt64) (m : μ) : List UInt8 × μ :=
  match fmt with
  | none => ([], m)
  | some fmt =>
      let s := format unbuffered mem fmt ⟨[], args, m⟩
      (s.out, s.mem)

/-- The context has taken the bytes `out`: they are what it has delivered,
chunk by chunk, and what it still holds. -/
def Buffers (level : Int) (ctx : Context) (out : List UInt8) : Prop :=
  ctx.level = level ∧ ctx.len = int32 out.length ∧
    ∃ chunks, Chunks printkBufferSize chunks ctx.buffer out ∧
      ctx.writes = chunks.flatMap (deliver sinks level)

/-- Counting in an `int` commutes with the conversion. -/
theorem int32_add (x y : Int) : int32 (int32 x + y) = int32 (x + y) := Int.bmod_add_bmod

theorem buffers_start (level : Int) : Buffers sinks level ⟨[], level, 0, []⟩ [] :=
  ⟨rfl, rfl, [], chunks_nil _, rfl⟩

/-- **`_flush`** delivers what is pending as one more chunk. -/
theorem Buffers.flush {level : Int} {ctx : Context} {out : List UInt8}
    (h : Buffers sinks level ctx out) :
    Buffers sinks level (flush sinks ctx) out ∧ (Printk.flush sinks ctx).buffer = [] := by
  obtain ⟨hlevel, hlen, chunks, hchunks, hwrites⟩ := h
  unfold Printk.flush
  split
  · rename_i hnone
    exact ⟨⟨hlevel, hlen, chunks, hchunks, hwrites⟩, List.length_eq_zero_iff.mp hnone⟩
  · rename_i hsome
    have hfits : ¬ ctx.buffer.length > printkBufferSize := Nat.not_lt.mpr hchunks.pending_le
    have hne : ctx.buffer ≠ [] := fun hc => hsome (by rw [hc]; rfl)
    rw [if_neg hfits]
    refine ⟨⟨hlevel, hlen, chunks ++ [ctx.buffer], hchunks.flush hne, ?_⟩, rfl⟩
    rw [List.flatMap_append, ← hwrites, ← hlevel]
    simp

/-- **`_putc`** on the context is an append on the list. -/
theorem Buffers.putc {level : Int} {ctx : Context} {out : List UInt8}
    (h : Buffers sinks level ctx out) (c : UInt8) :
    Buffers sinks level (putc sinks ctx c) (out ++ [c]) := by
  -- with the buffer flushed if need be there is room for the byte
  have hroom : ∃ ctx', Buffers sinks level ctx' out ∧ ctx'.buffer.length < printkBufferSize ∧
      Printk.putc sinks ctx c =
        { ctx' with buffer := ctx'.buffer ++ [c], len := int32 (ctx'.len + 1) } := by
    by_cases hfull : ctx.buffer.length ≥ printkBufferSize
    · obtain ⟨hf, hempty⟩ := h.flush
      refine ⟨Printk.flush sinks ctx, hf, by rw [hempty]; decide, ?_⟩
      rw [Printk.putc, if_pos hfull]
    · refine ⟨ctx, h, Nat.lt_of_not_le hfull, ?_⟩
      rw [Printk.putc, if_neg hfull]
  obtain ⟨ctx', ⟨hlevel, hlen, chunks, hchunks, hwrites⟩, hlt, hput⟩ := hroom
  have hcast : ((out ++ [c]).length : Int) = out.length + 1 := by
    rw [List.length_append]
    rfl
  rw [hput]
  refine ⟨hlevel, ?_, chunks, hchunks.push hlt c, hwrites⟩
  rw [hlen, hcast, int32_add]

theorem buffered_simulates (level : Int) :
    (buffered sinks).Simulates unbuffered (Buffers sinks level) where
  put := fun c h => h.putc sinks c
  len := by
    rintro ctx out ⟨-, hlen, -⟩
    simp only [buffered, unbuffered]
    exact hlen

/-- What one sink has been called with. -/
def writesTo (i : Fin maxSinks) (writes : List Write) : List (Int × List UInt8) :=
  (writes.filter fun w => w.sink = i).map fun w => (w.level, w.chunk)

/-- A delivery reaches each sink that is present once. -/
theorem writesTo_deliver (i : Fin maxSinks) (level : Int) (chunk : List UInt8) :
    writesTo i (deliver sinks level chunk) =
      if (sinks i).present then [(level, chunk)] else [] := by
  have hnodup := (List.nodup_finRange maxSinks).filter fun j => (sinks j).present
  unfold writesTo deliver
  rw [List.filter_map, List.map_map]
  have hself : (fun w : Write => decide (w.sink = i)) ∘ (fun j => (⟨j, level, chunk⟩ : Write)) =
      fun j => decide (j = i) := rfl
  rw [hself]
  have hone := List.filter_eq (l := (List.finRange maxSinks).filter fun j => (sinks j).present) i
  rw [hone]
  by_cases hp : (sinks i).present
  · have hmem : i ∈ (List.finRange maxSinks).filter fun j => (sinks j).present :=
      List.mem_filter.mpr ⟨List.mem_finRange i, hp⟩
    rw [List.count_eq_one_of_mem hnodup hmem, if_pos hp]
    rfl
  · have hmem : i ∉ (List.finRange maxSinks).filter fun j => (sinks j).present :=
      fun hc => hp (List.mem_filter.mp hc).2
    rw [List.count_eq_zero_of_not_mem hmem, if_neg hp]
    rfl

theorem writesTo_flatMap (i : Fin maxSinks) (level : Int) : ∀ (chunks : List (List UInt8)),
    writesTo i (chunks.flatMap (deliver sinks level)) =
      if (sinks i).present then chunks.map fun c => (level, c) else [] := by
  intro chunks
  induction chunks with
  | nil =>
      split
      · rfl
      · rfl
  | cons c chunks ih =>
      have happend : ∀ xs ys, writesTo i (xs ++ ys) = writesTo i xs ++ writesTo i ys := by
        intro xs ys
        simp [writesTo]
      rw [List.flatMap_cons, happend, ih, writesTo_deliver]
      by_cases hp : (sinks i).present
      · simp [hp]
      · simp [hp]

/-- **Buffering is transparent**: whatever the format, the arguments, the level
and the sinks, if the unbuffered formatter produces fewer than `2 ^ 31` bytes,
`vprintkl` returns their number and cuts them into chunks of 1 to 64 bytes;
every registered sink is given exactly these chunks, in order and at that
level, an unregistered one none, and memory (`%n`) ends up the same. -/
theorem vprintkl_transparent (level : Int) (fmt : Option (List UInt8)) (args : List UInt64) (m : μ)
    (hlen : (plain mem fmt args m).1.length < 2 ^ 31) :
    (vprintkl sinks mem level fmt args m).1 = (plain mem fmt args m).1.length ∧
    (vprintkl sinks mem level fmt args m).2.2 = (plain mem fmt args m).2 ∧
    ∃ chunks : List (List UInt8), chunks.flatten = (plain mem fmt args m).1 ∧
      (∀ c ∈ chunks, 1 ≤ c.length ∧ c.length ≤ 64) ∧
      ∀ i, writesTo i (vprintkl sinks mem level fmt args m).2.1.writes =
        if (sinks i).present then chunks.map fun c => (level, c) else [] := by
  cases fmt with
  | none =>
      refine ⟨rfl, rfl, [], rfl, fun _ hc => absurd hc List.not_mem_nil, fun i => ?_⟩
      split
      · rfl
      · rfl
  | some fmt =>
      have hstep : InStep (Buffers sinks level)
          (format (buffered sinks) mem fmt ⟨⟨[], level, 0, []⟩, args, m⟩)
          (format unbuffered mem fmt ⟨[], args, m⟩) :=
        formatLoop_sim (buffered_simulates sinks level) mem _ _
          ⟨buffers_start sinks level, rfl, rfl⟩
      obtain ⟨⟨-, hcount, chunks, hchunks, hwrites⟩, hempty⟩ := Buffers.flush sinks hstep.out
      have hall := hchunks.contents
      rw [hempty, List.append_nil] at hall
      refine ⟨?_, hstep.mem, chunks, hall, hchunks.size, fun i => ?_⟩
      · show
          (flush sinks (format (buffered sinks) mem fmt ⟨⟨[], level, 0, []⟩, args, m⟩).out).len = _
        rw [hcount]
        exact Int.bmod_eq_of_le (by omega) (by simp only [plain] at hlen ⊢; omega)
      · rw [← writesTo_flatMap sinks i level chunks, ← hwrites]
        rfl

end Buffer

/-- A memory without strings, for calls that read and store none. -/
def noMemory : Memory Unit := ⟨fun _ _ => [], fun _ _ => [], fun _ _ _ _ => ()⟩

/-- Two sinks, in the first and the last slot. -/
def twoSinks (i : Fin maxSinks) : PrintkSink :=
  ⟨fun _ => if i.val = 0 ∨ i.val = 7 then 'U'.toUInt8 else 0⟩

theorem vprintkl_transparent_width :
    (plain noMemory (some (literal "%70d%%")) [5] ()).1.length < 2 ^ 31 ∧
    (vprintkl twoSinks noMemory 6 (some (literal "%70d%%")) [5] ()).1 =
      (plain noMemory (some (literal "%70d%%")) [5] ()).1.length ∧
    (vprintkl twoSinks noMemory 6 (some (literal "%70d%%")) [5] ()).2.2 =
      (plain noMemory (some (literal "%70d%%")) [5] ()).2 ∧
    ∃ chunks : List (List UInt8),
      chunks.flatten = (plain noMemory (some (literal "%70d%%")) [5] ()).1 ∧
      (∀ c ∈ chunks, 1 ≤ c.length ∧ c.length ≤ 64) ∧
      ∀ i, writesTo i (vprintkl twoSinks noMemory 6 (some (literal "%70d%%")) [5] ()).2.1.writes =
        if (twoSinks i).present then chunks.map fun c => (6, c) else [] := by
  have hlen : (plain noMemory (some (literal "%70d%%")) [5] ()).1.length < 2 ^ 31 := by
    have h71 : (plain noMemory (some (literal "%70d%%")) [5] ()).1.length = 71 := by
      decide +kernel
    rw [h71]
    decide
  exact ⟨hlen, vprintkl_transparent twoSinks noMemory 6 _ [5] () hlen⟩

end DevOS.Printk
