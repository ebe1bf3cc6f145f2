import Mathlib
import JointMax.Wire.Bytes
import JointMax.Proofs.Words

/-
  What readers accept. The bytes that may stand for a value
  are its forms, given without any reader. A reader accepts a
  form if it takes exactly the values' forms off the front of
  the bytes and leaves what comes after them. Readers that
  follow each other accept forms that follow each other.

  Main declarations:
    * `Wire.Form` and `Wire.Accepts`
    * `Wire.Accepts.bind`, `Wire.Accepts.guard` and
      `Wire.Accepts.refuses_iff`
    * `Wire.Format`, forms by way of unchecked parts
    * `Wire.accepts_readVar`, `Wire.accepts_readSize`,
      `Wire.accepts_readNumber` and `Wire.accepts_readBool`
    * `Wire.Accepts.pair` and `Wire.Accepts.readList`
    * `Wire.Format.Total` and `Wire.Guards`
-/

------------------------------------------------------------
-- Accepted Forms
------------------------------------------------------------

namespace JointMax

namespace Wire

variable {β γ : Type}

/- The bytes that may stand for a value. -/
abbrev Form (β : Type) := β → Bytes → Prop

/- The reader takes forms off the bytes, and nothing else. -/
def Accepts (reader : Reader β) (form : Form β) : Prop :=
  ∀ bytes value rest,
    reader.run bytes = .ok (value, rest) ↔
      ∃ taken, form value taken ∧ bytes = taken ++ rest

/- Bytes are refused if they do not begin with a form. -/
theorem Accepts.refuses_iff
    {reader : Reader β}
    {form : Form β}
    (hReader : Accepts reader form)
    (bytes : Bytes) :
    (∃ fault, reader.run bytes = .error fault) ↔
      ∀ value taken rest,
        form value taken → bytes ≠ taken ++ rest := by
  constructor
  · rintro ⟨fault, hFault⟩ value taken rest hForm hBytes
    have hRead :=
      (hReader bytes value rest).mpr ⟨taken, hForm, hBytes⟩
    rw [hFault] at hRead
    cases hRead
  · intro hNone
    cases hRun : reader.run bytes with
    | error fault => exact ⟨fault, rfl⟩
    | ok found =>
        rcases (hReader bytes found.1 found.2).mp hRun with
          ⟨taken, hForm, hBytes⟩
        exact absurd hBytes
          (hNone found.1 taken found.2 hForm)

theorem Accepts.congr
    {reader : Reader β}
    {form other : Form β}
    (hReader : Accepts reader form)
    (hForms : ∀ value taken,
      form value taken ↔ other value taken) :
    Accepts reader other := by
  intro bytes value rest
  rw [hReader bytes value rest]
  simp only [hForms]

theorem accepts_pure (value : β) :
    Accepts (pure value) fun found taken =>
      found = value ∧ taken = [] := by
  intro bytes found rest
  change Except.ok (value, bytes) = .ok (found, rest) ↔ _
  constructor
  · intro hSame
    cases hSame
    exact ⟨[], ⟨rfl, rfl⟩, rfl⟩
  · rintro ⟨_, ⟨rfl, rfl⟩, rfl⟩
    rfl

theorem accepts_throw (fault : WireFault) :
    Accepts (throw fault : Reader β) fun _ _ => False := by
  intro bytes found rest
  change Except.error fault = .ok (found, rest) ↔ _
  simp

/- A value that passes its checks takes no further bytes. -/
theorem accepts_accept (checked : Except Fault β) :
    Accepts (accept checked) fun value taken =>
      checked = .ok value ∧ taken = [] := by
  cases checked with
  | error fault =>
      exact (accepts_throw (.invalid fault)).congr
        (by simp)
  | ok value =>
      exact (accepts_pure value).congr
        (by simp [eq_comm])

/- One form after another is read by one reader after another. -/
theorem Accepts.bind
    {first : Reader β}
    {next : β → Reader γ}
    {form : Form β}
    {later : β → Form γ}
    (hFirst : Accepts first form)
    (hNext : ∀ value, Accepts (next value) (later value)) :
    Accepts (first >>= next) fun value taken =>
      ∃ early front back,
        form early front ∧ later early value back ∧
          taken = front ++ back := by
  intro bytes value rest
  rw [StateT.run_bind]
  constructor
  · intro hRun
    cases hEarly : first.run bytes with
    | error fault =>
        rw [hEarly] at hRun
        cases hRun
    | ok found =>
        rcases found with ⟨early, middle⟩
        rw [hEarly] at hRun
        rcases (hFirst bytes early middle).mp hEarly with
          ⟨front, hFront, rfl⟩
        rcases (hNext early middle value rest).mp hRun with
          ⟨back, hBack, rfl⟩
        exact ⟨front ++ back,
          ⟨early, front, back, hFront, hBack, rfl⟩,
          (List.append_assoc front back rest).symm⟩
  · rintro
      ⟨_, ⟨early, front, back, hFront, hBack, rfl⟩, rfl⟩
    have hEarly :=
      (hFirst (front ++ (back ++ rest)) early
        (back ++ rest)).mpr ⟨front, hFront, rfl⟩
    rw [List.append_assoc, hEarly]
    exact (hNext early (back ++ rest) value rest).mpr
      ⟨back, hBack, rfl⟩

theorem Accepts.map
    {first : Reader β}
    {form : Form β}
    (hFirst : Accepts first form)
    (f : β → γ) :
    Accepts (do let value ← first; return f value)
      fun value taken =>
        ∃ early, f early = value ∧ form early taken := by
  refine (hFirst.bind fun early =>
    accepts_pure (f early)).congr ?_
  intro value taken
  constructor
  · rintro ⟨early, front, _, hForm, ⟨rfl, rfl⟩, rfl⟩
    exact ⟨early, rfl, by rwa [List.append_nil]⟩
  · rintro ⟨early, rfl, hForm⟩
    exact ⟨early, taken, [], hForm, ⟨rfl, rfl⟩,
      (List.append_nil taken).symm⟩

/- Two readers, and a condition that tells which one reads. -/
theorem Accepts.ite
    {first second : Reader β}
    {form other : Form β}
    (hFirst : Accepts first form)
    (condition : Prop)
    [Decidable condition]
    (hSecond : Accepts second other) :
    Accepts (if condition then first else second)
      fun value taken =>
        if condition then form value taken
        else other value taken := by
  by_cases hCondition : condition
  · simpa only [hCondition, if_true] using hFirst
  · simpa only [hCondition, if_false] using hSecond

/- A check before a reader, with its own refusal. -/
theorem Accepts.guard
    {reader : Reader β}
    {form : Form β}
    (hReader : Accepts reader form)
    (condition : Prop)
    [Decidable condition]
    (fault : WireFault) :
    Accepts (if condition then reader else throw fault)
      fun value taken => condition ∧ form value taken := by
  refine (hReader.ite condition
    (accepts_throw fault)).congr ?_
  intro value taken
  by_cases hCondition : condition <;> simp [hCondition]

end Wire

end JointMax

------------------------------------------------------------
-- Formats
------------------------------------------------------------

namespace JointMax

namespace Wire

/-
  A form of values by way of their parts, which are plain data
  that may fit together or not. Valid parts are written one
  after another, and `makes` tells what they are the parts of.
-/
structure Format (γ β : Type) where
  valid : γ → Prop
  makes : γ → β → Prop
  write : γ → Bytes

namespace Format

variable {β γ δ ε : Type}

def form (format : Format γ β) : Form β :=
  fun value taken =>
    ∃ parts,
      format.valid parts ∧ format.makes parts value ∧
        taken = format.write parts

/- Values that are written as they are. -/
def plain (valid : β → Prop) (write : β → Bytes) :
    Format β β where
  valid := valid
  makes := Eq
  write := write

def pair (first : Format γ β) (second : Format δ ε) :
    Format (γ × δ) (β × ε) where
  valid := fun parts =>
    first.valid parts.1 ∧ second.valid parts.2
  makes := fun parts values =>
    first.makes parts.1 values.1 ∧
      second.makes parts.2 values.2
  write := fun parts =>
    first.write parts.1 ++ second.write parts.2

def list (format : Format γ β) :
    Format (List γ) (List β) where
  valid := fun parts =>
    parts.length < wordLimit ∧
      ∀ part ∈ parts, format.valid part
  makes := List.Forall₂ format.makes
  write := listBytes format.write

theorem form_plain
    {valid : β → Prop}
    {write : β → Bytes}
    {value : β}
    {taken : Bytes} :
    (plain valid write).form value taken ↔
      valid value ∧ taken = write value := by
  simp [form, plain]

end Format

variable {β γ δ ε : Type}
variable {format : Format γ β} {reader : Reader β}

/- What has been made of valid parts is read back. -/
theorem Accepts.run_write
    (hReader : Accepts reader format.form)
    {parts : γ}
    {value : β}
    (hValid : format.valid parts)
    (hMakes : format.makes parts value)
    (rest : Bytes) :
    reader.run (format.write parts ++ rest) =
      .ok (value, rest) :=
  (hReader _ value rest).mpr
    ⟨_, ⟨parts, hValid, hMakes, rfl⟩, rfl⟩

theorem Accepts.pair
    {other : Format δ ε}
    {next : Reader ε}
    (hFirst : Accepts reader format.form)
    (hNext : Accepts next other.form) :
    Accepts
      (do
        let first ← reader
        let second ← next
        return (first, second))
      (format.pair other).form := by
  refine (hFirst.bind fun first =>
    hNext.map fun second => (first, second)).congr ?_
  intro value taken
  constructor
  · rintro
      ⟨first, _, _, ⟨parts, hValid, hMakes, rfl⟩,
        ⟨second, rfl, others, hOther, hSecond, rfl⟩, rfl⟩
    exact ⟨(parts, others), ⟨hValid, hOther⟩,
      ⟨hMakes, hSecond⟩, rfl⟩
  · rintro
      ⟨parts, ⟨hValid, hOther⟩, ⟨hMakes, hSecond⟩, rfl⟩
    exact ⟨value.1, _, _, ⟨parts.1, hValid, hMakes, rfl⟩,
      ⟨value.2, rfl, parts.2, hOther, hSecond, rfl⟩, rfl⟩

/- So many forms in a row. -/
theorem Accepts.readMany
    (hReader : Accepts reader format.form)
    (count : Nat) :
    Accepts (readMany reader count) fun values taken =>
      ∃ parts : List γ,
        parts.length = count ∧
          (∀ part ∈ parts, format.valid part) ∧
          List.Forall₂ format.makes parts values ∧
          taken = parts.flatMap format.write := by
  induction count with
  | zero =>
      refine (accepts_pure []).congr ?_
      intro values taken
      constructor
      · rintro ⟨rfl, rfl⟩
        exact ⟨[], rfl, by simp, .nil, rfl⟩
      · rintro ⟨parts, hLength, _, hMakes, rfl⟩
        cases List.eq_nil_of_length_eq_zero hLength
        cases hMakes
        exact ⟨rfl, rfl⟩
  | succ count ih =>
      refine (hReader.bind fun first =>
        ih.map fun later => first :: later).congr ?_
      intro values taken
      constructor
      · rintro
          ⟨first, _, _, ⟨part, hValid, hMakes, rfl⟩,
            ⟨later, rfl, parts, hLength, hLater, hAll, rfl⟩,
            rfl⟩
        exact ⟨part :: parts, by simp [hLength],
          List.forall_mem_cons.mpr ⟨hValid, hLater⟩,
          .cons hMakes hAll, rfl⟩
      · rintro ⟨parts, hLength, hValid, hMakes, rfl⟩
        cases hMakes with
        | nil => cases hLength
        | @cons part first parts later hFirst hLater =>
            rcases List.forall_mem_cons.mp hValid with
              ⟨hPart, hParts⟩
            exact ⟨first, _, _, ⟨part, hPart, hFirst, rfl⟩,
              ⟨later, rfl, parts, by simpa using hLength,
                hParts, hLater, rfl⟩, rfl⟩

end Wire

end JointMax

------------------------------------------------------------
-- Numbers
------------------------------------------------------------

namespace JointMax

namespace Wire

theorem accepts_readByte :
    Accepts readByte fun byte taken => taken = [byte] := by
  intro bytes byte rest
  cases bytes with
  | nil =>
      change Except.error _ = Except.ok _ ↔ _
      simp
  | cons head tail =>
      change Except.ok (head, tail) = .ok (byte, rest) ↔ _
      simp

theorem toNat_add_div (low : UInt8) (high : Nat) :
    (low.toNat + 256 * high) / 256 = high := by
  have hLow : low.toNat < 256 := low.toNat_lt
  omega

theorem ofNat_add_mod (low : UInt8) (high : Nat) :
    UInt8.ofNat ((low.toNat + 256 * high) % 256) = low := by
  have hLow : low.toNat < 256 := low.toNat_lt
  have hMod : (low.toNat + 256 * high) % 256 = low.toNat := by
    omega
  rw [hMod, UInt8.ofNat_toNat]

/- The low byte comes first, and then those of the quotient. -/
theorem accepts_readNat (width : Nat) :
    Accepts (readNat width) fun n taken =>
      n < 256 ^ width ∧ taken = littleEndian width n := by
  induction width with
  | zero =>
      exact (accepts_pure 0).congr (by simp [littleEndian])
  | succ width ih =>
      refine (accepts_readByte.bind fun low =>
        ih.map fun high => low.toNat + 256 * high).congr ?_
      intro n taken
      constructor
      · rintro
          ⟨low, _, _, rfl, ⟨high, rfl, hHigh, rfl⟩, rfl⟩
        have hLow : low.toNat < 256 := low.toNat_lt
        refine ⟨by rw [pow_succ]; omega, ?_⟩
        rw [littleEndian, toNat_add_div, ofNat_add_mod]
        rfl
      · rintro ⟨hBound, rfl⟩
        have hLow : (UInt8.ofNat (n % 256)).toNat = n % 256 :=
          UInt8.toNat_ofNat_of_lt' (Nat.mod_lt n (by decide))
        refine ⟨UInt8.ofNat (n % 256), _, _, rfl,
          ⟨n / 256, ?_, ?_, rfl⟩, rfl⟩
        · rw [hLow]
          exact Nat.mod_add_div n 256
        · rw [pow_succ] at hBound
          omega

def varFormat : Format VarId VarId :=
  .plain (fun _ => True) varBytes

def sizeFormat : Format Nat Nat :=
  .plain (· < wordLimit) sizeBytes

def boolFormat : Format Bool Bool :=
  .plain (fun _ => True) boolBytes

/- Numbers by way of their bits. -/
def numberFormat {α : Type} [Binary64 α] :
    Format UInt64 α where
  valid := fun _ => True
  makes := fun word x => x = Binary64.ofBits word
  write := fun word => littleEndian 8 word.toNat

theorem accepts_readVar :
    Accepts readVar varFormat.form := by
  refine ((accepts_readNat 4).map UInt32.ofNat).congr ?_
  intro var taken
  rw [varFormat, Format.form_plain]
  constructor
  · rintro ⟨n, rfl, hBound, rfl⟩
    rw [varBytes, UInt32.toNat_ofNat_of_lt' hBound]
    exact ⟨trivial, rfl⟩
  · rintro ⟨_, rfl⟩
    exact ⟨var.toNat, UInt32.ofNat_toNat, var.toNat_lt, rfl⟩

theorem accepts_readSize :
    Accepts readSize sizeFormat.form := by
  refine (accepts_readNat 8).congr ?_
  intro n taken
  rw [sizeFormat, Format.form_plain]
  rfl

theorem accepts_readNumber {α : Type} [Binary64 α] :
    Accepts (readNumber : Reader α) numberFormat.form := by
  refine ((accepts_readNat 8).map fun n =>
    Binary64.ofBits (UInt64.ofNat n)).congr ?_
  intro x taken
  constructor
  · rintro ⟨n, rfl, hBound, rfl⟩
    exact ⟨UInt64.ofNat n, trivial, rfl,
      congrArg (littleEndian 8)
        (UInt64.toNat_ofNat_of_lt' hBound).symm⟩
  · rintro ⟨word, _, rfl, rfl⟩
    exact ⟨word.toNat, by rw [UInt64.ofNat_toNat],
      word.toNat_lt, rfl⟩

theorem accepts_readBool :
    Accepts readBool boolFormat.form := by
  refine (accepts_readByte.bind fun byte =>
    (accepts_pure false).ite (byte = 0)
      ((accepts_pure true).guard (byte = 1)
        .badBool)).congr ?_
  intro b taken
  rw [boolFormat, Format.form_plain]
  constructor
  · rintro ⟨byte, _, _, rfl, hByte, rfl⟩
    split at hByte
    · rename_i hZero
      rcases hByte with ⟨rfl, rfl⟩
      exact ⟨trivial, by rw [hZero]; rfl⟩
    · rcases hByte with ⟨rfl, rfl, rfl⟩
      exact ⟨trivial, rfl⟩
  · rintro ⟨_, rfl⟩
    cases b with
    | false => exact ⟨0, [0], [], rfl, ⟨rfl, rfl⟩, rfl⟩
    | true => exact ⟨1, [1], [], rfl, ⟨rfl, rfl, rfl⟩, rfl⟩

end Wire

end JointMax

------------------------------------------------------------
-- Lists
------------------------------------------------------------

namespace JointMax

namespace Wire

variable {β γ : Type}
variable {format : Format γ β} {reader : Reader β}

/- The length comes first, and says how many items follow. -/
theorem Accepts.readList
    (hReader : Accepts reader format.form) :
    Accepts (readList reader) format.list.form := by
  refine (accepts_readSize.bind hReader.readMany).congr ?_
  intro values taken
  simp only [sizeFormat, Format.form_plain]
  constructor
  · rintro
      ⟨_, _, _, ⟨hWord, rfl⟩,
        ⟨parts, rfl, hValid, hMakes, rfl⟩, rfl⟩
    exact ⟨parts, ⟨hWord, hValid⟩, hMakes, rfl⟩
  · rintro ⟨parts, ⟨hWord, hValid⟩, hMakes, rfl⟩
    exact ⟨parts.length, _, _, ⟨hWord, rfl⟩,
      ⟨parts, rfl, hValid, hMakes, rfl⟩, rfl⟩

/- A list of plain items is itself written as it is. -/
theorem Format.makes_list_plain
    {valid : β → Prop}
    {write : β → Bytes}
    {parts items : List β} :
    (plain valid write).list.makes parts items ↔
      parts = items :=
  List.forall₂_eq_eq_eq ▸ Iff.rfl

end Wire

end JointMax

------------------------------------------------------------
-- Guards
------------------------------------------------------------

namespace JointMax

namespace Wire

variable {β γ δ ε : Type}

namespace Format

variable {format : Format γ β} {other : Format δ ε}

/- The same bytes, for what is made of the values. -/
def map (format : Format γ β) (f : β → δ) : Format γ δ where
  valid := format.valid
  makes := fun parts value =>
    ∃ early, format.makes parts early ∧ f early = value
  write := format.write

/- Something is made of all valid parts. -/
def Total (format : Format γ β) : Prop :=
  ∀ parts, format.valid parts →
    ∃ value, format.makes parts value

theorem total_plain
    (valid : β → Prop)
    (write : β → Bytes) :
    (plain valid write).Total :=
  fun value _ => ⟨value, rfl⟩

theorem Total.pair
    (hFirst : format.Total)
    (hSecond : other.Total) :
    (format.pair other).Total := by
  rintro ⟨first, second⟩ ⟨hValid, hOther⟩
  rcases hFirst first hValid with ⟨value, hValue⟩
  rcases hSecond second hOther with ⟨last, hLast⟩
  exact ⟨(value, last), hValue, hLast⟩

theorem Total.list
    (hTotal : format.Total) :
    format.list.Total := by
  rintro parts ⟨hLength, hValid⟩
  clear hLength
  induction parts with
  | nil => exact ⟨[], .nil⟩
  | cons part parts ih =>
      rcases List.forall_mem_cons.mp hValid with
        ⟨hPart, hParts⟩
      rcases hTotal part hPart with ⟨value, hValue⟩
      rcases ih hParts with ⟨values, hValues⟩
      exact ⟨value :: values, .cons hValue hValues⟩

theorem Total.map
    (hTotal : format.Total)
    (f : β → δ) :
    (format.map f).Total := by
  intro parts hValid
  rcases hTotal parts hValid with ⟨value, hValue⟩
  exact ⟨f value, value, hValue, rfl⟩

theorem form_list_plain
    {valid : β → Prop}
    {write : β → Bytes}
    {values : List β}
    {taken : Bytes} :
    (plain valid write).list.form values taken ↔
      (values.length < wordLimit ∧
        ∀ value ∈ values, valid value) ∧
        taken = listBytes write values := by
  simp only [form, makes_list_plain]
  constructor
  · rintro ⟨_, hValid, rfl, rfl⟩
    exact ⟨hValid, rfl⟩
  · rintro ⟨hValid, rfl⟩
    exact ⟨values, hValid, rfl, rfl⟩

end Format

theorem Accepts.format_map
    {format : Format γ β}
    {reader : Reader β}
    (hReader : Accepts reader format.form)
    (f : β → δ) :
    Accepts (do let value ← reader; return f value)
      (format.map f).form := by
  refine (hReader.map f).congr ?_
  intro value taken
  constructor
  · rintro ⟨early, hValue, parts, hValid, hMakes, rfl⟩
    exact ⟨parts, hValid, ⟨early, hMakes, hValue⟩, rfl⟩
  · rintro ⟨parts, hValid, ⟨early, hMakes, hValue⟩, rfl⟩
    exact ⟨early, hValue, parts, hValid, hMakes, rfl⟩

/-
  A reader that lets in what valid parts make, and nothing
  else: any bytes that do not begin with valid parts, written
  down, are refused.
-/
structure Guards
    (reader : Reader β)
    (format : Format γ β) : Prop where
  accepts : ∀ bytes value rest,
    reader.run bytes = .ok (value, rest) ↔
      ∃ parts,
        format.valid parts ∧ format.makes parts value ∧
          bytes = format.write parts ++ rest
  refuses : ∀ bytes,
    (∃ fault, reader.run bytes = .error fault) ↔
      ∀ parts rest,
        format.valid parts →
          bytes ≠ format.write parts ++ rest

theorem Accepts.guards
    {format : Format γ β}
    {reader : Reader β}
    (hReader : Accepts reader format.form)
    (hTotal : format.Total) :
    Guards reader format where
  accepts := by
    intro bytes value rest
    rw [hReader bytes value rest]
    constructor
    · rintro ⟨_, ⟨parts, hValid, hMakes, rfl⟩, rfl⟩
      exact ⟨parts, hValid, hMakes, rfl⟩
    · rintro ⟨parts, hValid, hMakes, rfl⟩
      exact ⟨_, ⟨parts, hValid, hMakes, rfl⟩, rfl⟩
  refuses := by
    intro bytes
    rw [hReader.refuses_iff]
    constructor
    · intro hNone parts rest hValid
      rcases hTotal parts hValid with ⟨value, hMakes⟩
      exact hNone value _ rest ⟨parts, hValid, hMakes, rfl⟩
    · rintro hNone value _ rest ⟨parts, hValid, _, rfl⟩
      exact hNone parts rest hValid

end Wire

end JointMax
