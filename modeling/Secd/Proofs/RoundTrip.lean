import Mathlib.Algebra.Group.Nat.Defs
import Secd.Listing.Binary

namespace Secd

/-! # Reading binary listings back

`Wire.Reads get bytes value` says that the reader takes exactly `bytes` for `value`: it leaves
whatever follows them, and where they are cut short it finds that they end too early. Readers that
run one after the other read bytes that follow each other (`Wire.Reads.bind`), so this carries over
from single bytes through numbers, texts and lists to operands, instructions, blocks and listings
(`Listing.reads`). The same holds of bytes that are cut short: wherever the cut falls, it is the end
of the bytes that is met first (`Listing.ofBytes_of_cut`).

A number is read back if it fits in 64 bits. So must all that is written as a number: lengths of
texts, counts of elements and offsets (`Listing.Fits`).
-/

namespace Wire

/-! ## Readers -/

/-- The reader takes exactly these bytes for the value. -/
structure Reads {α : Type} (get : Reader α) (bytes : Bytes) (value : α) : Prop where
  whole : ∀ rest, get (bytes ++ rest) = .ok (value, rest)
  cut : ∀ part missing, bytes = part ++ missing → missing ≠ [] →
    get part = .error .unexpectedEnd

namespace Reads

variable {α β : Type}

theorem pure (value : α) : Reads (Pure.pure value) [] value where
  whole _ := rfl
  cut _ _ split isMissing := absurd (List.append_eq_nil_iff.mp split.symm).2 isMissing

theorem bind {get : Reader α} {next : α → Reader β} {bytes others : Bytes} {value : α} {result : β}
    (first : Reads get bytes value) (second : Reads (next value) others result) :
    Reads (get >>= next) (bytes ++ others) result where
  whole rest := by
    change (get (bytes ++ others ++ rest) >>= fun (found, left) => next found left) = _
    rw [List.append_assoc, first.whole]
    exact second.whole rest
  cut part missing split isMissing := by
    change (get part >>= fun (found, left) => next found left) = _
    rcases List.append_eq_append_iff.mp split with ⟨middle, rfl, left⟩ | ⟨middle, whole, left⟩
    · rw [first.whole]
      exact second.cut middle missing left isMissing
    · cases middle with
      | nil =>
        -- the cut is between the two
        rw [List.append_nil] at whole
        rw [← whole, ← List.append_nil bytes, first.whole]
        exact second.cut [] missing left.symm isMissing
      | cons byte middle =>
        rw [first.cut part (byte :: middle) whole (List.cons_ne_nil _ _)]
        rfl

/-- What comes second may need no bytes. -/
theorem andThen {get : Reader α} {next : α → Reader β} {bytes : Bytes} {value : α} {result : β}
    (first : Reads get bytes value) (second : Reads (next value) [] result) :
    Reads (get >>= next) bytes result := by
  rw [← List.append_nil bytes]
  exact first.bind second

theorem map {get : Reader α} {bytes : Bytes} {value : α} (reads : Reads get bytes value)
    (f : α → β) : Reads (do return f (← get)) bytes (f value) :=
  reads.andThen (.pure (f value))

theorem byte (value : UInt8) : Reads getByte [value] value where
  whole _ := rfl
  cut part missing split isMissing := by
    cases part with
    | nil => rfl
    | cons head part =>
      rw [List.cons_append, List.cons.injEq] at split
      exact absurd (List.append_eq_nil_iff.mp split.2.symm).2 isMissing

/-- One byte first. -/
theorem cons {value : UInt8} {next : UInt8 → Reader β} {bytes : Bytes} {result : β}
    (second : Reads (next value) bytes result) : Reads (getByte >>= next) (value :: bytes) result :=
  (byte value).bind second

end Reads

/-! ## Numbers -/

theorem toNat_toUInt8 {n : Nat} (bound : n < 256) : n.toUInt8.toNat = n := by
  simp [Nat.mod_eq_of_lt bound]

/-- A number of few enough groups is read back. -/
theorem reads_groups {top : Nat} (small : top < 128) (groups : Nat) : ∀ {n : Nat},
    n < (top + 1) * 128 ^ groups → Reads (getGroups top groups) (putNat n) n := by
  induction groups with
  | zero =>
    intro n bound
    rw [putNat, if_pos (by omega)]
    apply Reads.cons
    rw [toNat_toUInt8 (by omega), if_pos (by omega)]
    exact .pure n
  | succ groups ih =>
    intro n bound
    rw [putNat]
    split
    · rename_i single
      apply Reads.cons
      rw [toNat_toUInt8 (by omega), if_pos single]
      exact .pure n
    · -- the first byte carries the lowest group, the others the rest
      have fewer : n / 128 < (top + 1) * 128 ^ groups := by
        rw [Nat.pow_succ, ← Nat.mul_assoc] at bound
        exact Nat.div_lt_of_lt_mul (Nat.mul_comm _ 128 ▸ bound)
      have value : n % 128 + 128 - 128 + 128 * (n / 128) = n := by omega
      apply Reads.cons
      rw [toNat_toUInt8 (by omega), if_neg (by omega)]
      have rest := (ih fewer).map fun higher => n % 128 + 128 - 128 + 128 * higher
      rwa [value] at rest

theorem reads_nat {n : Nat} (fits : n < 2 ^ 64) : Reads getNat (putNat n) n :=
  reads_groups (by decide) 9 fits

theorem reads_variant {n : Nat} (fits : n < 2 ^ 32) : Reads getVariant (putNat n) n :=
  reads_groups (by decide) 4 fits

theorem zigzag_lt (value : Int64) : zigzag value.toInt < 2 ^ 64 := by
  have lower := value.le_toInt
  have upper := value.toInt_lt
  cases isInt : value.toInt with
  | ofNat n =>
    rw [isInt, Int.ofNat_eq_natCast] at upper
    rw [zigzag]
    omega
  | negSucc n =>
    rw [isInt] at lower
    rw [zigzag]
    omega

theorem reads_int64 (value : Int64) : Reads getInt64 (putInt64 value) value := by
  have reads := (reads_nat (zigzag_lt value)).map fun n => Int64.ofInt (unzigzag n)
  rwa [unzigzag_zigzag, Int64.ofInt_toInt] at reads

/-! ## Texts, lists and optional values -/

theorem reads_bytes (bytes : Bytes) : Reads (getBytes bytes.length) bytes bytes where
  whole rest := by simp [getBytes]
  cut part missing split isMissing := by
    have shorter : part.length < bytes.length := by
      have := List.length_pos_iff.mpr isMissing
      rw [split, List.length_append]
      omega
    have notWhole : ¬ min bytes.length part.length = bytes.length := by omega
    simp [getBytes, notWhole]

theorem fromUTF8?_toByteArray (text : String) :
    String.fromUTF8? text.toByteArray.data.toList.toByteArray = some text := by
  have same : text.toByteArray.data.toList.toByteArray = text.toByteArray := by
    ext1
    simp [List.data_toByteArray]
  rw [same, String.fromUTF8?, dif_pos text.isValidUTF8]
  rfl

theorem reads_text {text : String} (fits : text.utf8ByteSize < 2 ^ 64) :
    Reads getText (putText text) text := by
  have size : text.toByteArray.data.toList.length = text.utf8ByteSize := by simp
  refine (reads_nat (by omega)).bind ((reads_bytes text.toByteArray.data.toList).andThen ?_)
  rw [fromUTF8?_toByteArray]
  exact .pure text

variable {α : Type} {put : α → Bytes} {get : Reader α}

/-- Values that are read back one by one are read back one after the other. -/
theorem reads_many {values : List α} (each : ∀ value ∈ values, Reads get (put value) value) :
    Reads (getMany get values.length) (values.flatMap put) values := by
  induction values with
  | nil => exact .pure []
  | cons value rest ih =>
    have tail := ih fun other member => each other (List.mem_cons_of_mem _ member)
    exact (each value List.mem_cons_self).bind (tail.map (value :: ·))

theorem reads_list {values : List α} (fits : values.length < 2 ^ 64)
    (each : ∀ value ∈ values, Reads get (put value) value) :
    Reads (getList get) (putList put values) values :=
  (reads_nat fits).bind (reads_many each)

theorem reads_option {value : Option α} (each : ∀ inner ∈ value, Reads get (put inner) inner) :
    Reads (getOption get) (putOption put value) value := by
  cases value with
  | none => exact .cons (.pure none)
  | some inner => exact .cons ((each inner rfl).map some)

end Wire

open Wire

/-! ## Operands and instructions -/

theorem Opcode.reads (opcode : Opcode) : Reads Opcode.get opcode.put opcode := by
  have place : all.idxOf opcode < all.length := List.idxOf_lt_length_iff.mpr (mem_all opcode)
  have found : all[all.idxOf opcode]? = some opcode := by cases opcode <;> rfl
  refine (reads_variant (Nat.lt_trans place (by decide))).andThen ?_
  rw [found]
  exact .pure opcode

namespace Operand

/-- The length of a text and an offset fit in 64 bits. -/
def Fits : Operand → Prop
  | .int _ => True
  | .text source => source.utf8ByteSize < 2 ^ 64
  | .name symbol => symbol.utf8ByteSize < 2 ^ 64
  | .offset position => position < 2 ^ 64

instance : DecidablePred Fits
  | .int _ => inferInstanceAs (Decidable True)
  | .text _ | .name _ | .offset _ => inferInstanceAs (Decidable (_ < _))

theorem reads {operand : Operand} (fits : operand.Fits) :
    Reads Operand.get operand.put operand := by
  cases operand with
  | int value => exact (reads_variant (by decide)).bind ((reads_int64 value).map Operand.int)
  | text source => exact (reads_variant (by decide)).bind ((reads_text fits).map Operand.text)
  | name symbol => exact (reads_variant (by decide)).bind ((reads_text fits).map Operand.name)
  | offset position => exact (reads_variant (by decide)).bind ((reads_nat fits).map Operand.offset)

end Operand

namespace Instr

/-- Operands and comment can be written. -/
def Fits (instr : Instr) : Prop :=
  instr.args.length < 2 ^ 64 ∧ (∀ arg ∈ instr.args, arg.Fits) ∧
    ∀ comment ∈ instr.comment, comment.utf8ByteSize < 2 ^ 64

instance : DecidablePred Fits := fun _ => inferInstanceAs (Decidable (_ ∧ _ ∧ _))

theorem reads {instr : Instr} (fits : instr.Fits) : Reads Instr.get instr.put instr := by
  obtain ⟨count, args, comment⟩ := fits
  rw [put, List.append_assoc]
  refine (Opcode.reads _).bind ((reads_list count fun arg member => ?_).bind
    ((reads_option fun text isComment => ?_).andThen (.pure instr)))
  · exact Operand.reads (args arg member)
  · exact reads_text (comment text isComment)

end Instr

/-! ## Blocks and listings -/

namespace PlacedBlock

def Fits (block : PlacedBlock) : Prop :=
  block.name.utf8ByteSize < 2 ^ 64 ∧ block.offset < 2 ^ 64 ∧ block.instrs.length < 2 ^ 64 ∧
    ∀ instr ∈ block.instrs, instr.Fits

instance : DecidablePred Fits := fun _ => inferInstanceAs (Decidable (_ ∧ _ ∧ _ ∧ _))

theorem reads {block : PlacedBlock} (fits : block.Fits) :
    Reads PlacedBlock.get block.put block := by
  obtain ⟨name, offset, count, instrs⟩ := fits
  rw [put, List.append_assoc]
  refine (reads_text name).bind ((reads_nat offset).bind
    ((reads_list count fun instr member => ?_).andThen (.pure block)))
  exact Instr.reads (instrs instr member)

end PlacedBlock

namespace Listing

/-- Every length, count and offset of a listing fits in 64 bits. -/
def Fits (listing : Listing) : Prop :=
  listing.name.utf8ByteSize < 2 ^ 64 ∧
    (listing.preamble.length < 2 ^ 64 ∧ ∀ instr ∈ listing.preamble, instr.Fits) ∧
    listing.blocks.length < 2 ^ 64 ∧ ∀ block ∈ listing.blocks, block.Fits

instance : DecidablePred Fits := fun _ => inferInstanceAs (Decidable (_ ∧ (_ ∧ _) ∧ _ ∧ _))

theorem reads {listing : Listing} (fits : listing.Fits) :
    Reads Listing.get listing.toBytes listing := by
  obtain ⟨name, ⟨preambleCount, preamble⟩, blockCount, blocks⟩ := fits
  rw [toBytes, List.append_assoc]
  refine (reads_text name).bind ((reads_list preambleCount fun instr member => ?_).bind
    ((reads_list blockCount fun block member => ?_).andThen (.pure listing)))
  · exact Instr.reads (preamble instr member)
  · exact PlacedBlock.reads (blocks block member)

theorem ofBytes_append {listing : Listing} (fits : listing.Fits) (rest : Bytes) :
    ofBytes (listing.toBytes ++ rest) = .ok listing := by
  rw [ofBytes, decode, (reads fits).whole]
  rfl

/-- A listing is read back from its bytes, whatever follows them. So different listings have
different bytes, and those of one are not the beginning of those of another. -/
theorem ofBytes_toBytes {listing : Listing} (fits : listing.Fits) :
    (∀ rest : Bytes, ofBytes (listing.toBytes ++ rest) = .ok listing) ∧
      (∀ other : Listing, other.Fits → other.toBytes = listing.toBytes → other = listing) ∧
      ∀ other : Listing, other.Fits → listing.toBytes <+: other.toBytes →
        other.toBytes = listing.toBytes := by
  have unique : ∀ other : Listing, other.Fits → listing.toBytes <+: other.toBytes →
      other = listing := by
    rintro other otherFits ⟨rest, split⟩
    have same : (.ok listing : Except DecodeError Listing) = .ok other := by
      rw [← ofBytes_append fits rest, split, ← List.append_nil other.toBytes]
      exact ofBytes_append otherFits []
    exact (Except.ok.inj same).symm
  refine ⟨ofBytes_append fits, fun other otherFits sameBytes => ?_,
    fun other otherFits begins => ?_⟩
  · exact unique other otherFits (sameBytes ▸ List.prefix_rfl)
  · rw [unique other otherFits begins]

/-- Words at the limits of their types, an empty and a missing comment, and characters of one to
four bytes. -/
def extremes : Listing where
  name := "ą → 🙂"
  preamble := [⟨.ldc, [.int Int64.minValue, .int Int64.maxValue, .int (-1)], some ""⟩,
    ⟨.ldf, [.offset (2 ^ 64 - 1), .text "", .name "é\n;"], none⟩]
  blocks := [⟨"", 128, []⟩, ⟨"main.1t", 2 ^ 63, [⟨.dbug, [], some "\x00"⟩]⟩]

theorem ofBytes_toBytes_extremes :
    extremes.Fits ∧ ofBytes (extremes.toBytes ++ [0xff, 0x00]) = .ok extremes := by
  have fits : extremes.Fits := by decide
  exact ⟨fits, (ofBytes_toBytes fits).1 [0xff, 0x00]⟩

/-- A listing takes at least one byte, and of its bytes no beginning but the whole is accepted or
refused for anything but its end. -/
theorem ofBytes_of_cut {listing : Listing} (fits : listing.Fits) :
    listing.toBytes ≠ [] ∧ ∀ part : Bytes, part <+: listing.toBytes → part ≠ listing.toBytes →
      ofBytes part = .error .unexpectedEnd := by
  constructor
  · intro isEmpty
    have accepted := ofBytes_append fits []
    rw [isEmpty] at accepted
    cases accepted
  · rintro part ⟨missing, split⟩ isShorter
    have isMissing : missing ≠ [] := by
      rintro rfl
      exact isShorter (by rwa [List.append_nil] at split)
    rw [ofBytes, decode, (reads fits).cut part missing split.symm isMissing]
    rfl

/-- Cuts at every place: inside numbers, characters, instructions and blocks. -/
theorem ofBytes_of_cut_extremes :
    extremes.Fits ∧ ∀ count < extremes.toBytes.length,
      ofBytes (extremes.toBytes.take count) = .error .unexpectedEnd := by
  have fits : extremes.Fits := by decide
  refine ⟨fits, fun count isShorter => ?_⟩
  refine (ofBytes_of_cut fits).2 _ (List.take_prefix count _) fun whole => ?_
  have sameLength := congrArg List.length whole
  rw [List.length_take] at sameLength
  omega

end Listing

end Secd
