import TopNFreq.Library.Text

/-! The input streams of the C++ library on a seekable device: the unformatted
`get`s, `seekg(-1, cur)` and the formatted extraction of an `int`, with the three
state bits. `before` holds the bytes already read, last one first, and `after`
those still to come; on a `broken` device the read behind the last of them is
an error instead of end of file. -/
namespace Library.InputStream
open Library.Text

structure IStream where
  before : Bytes
  after : Bytes
  broken : Bool
  eofbit : Bool
  failbit : Bool
  badbit : Bool
deriving DecidableEq

namespace IStream

/-- A freshly opened stream; `fault` is the position whose read fails. -/
def opened (content : Bytes) (fault : Option Nat) : IStream :=
  match fault with
  | none => ⟨[],content,false,false,false,false⟩
  | some position => ⟨[],content.take position,decide (position ≤ content.length),false,false,false⟩

def unopened : IStream := ⟨[],[],false,false,true,false⟩

def good (s : IStream) : Bool := !s.eofbit && !s.failbit && !s.badbit

def fail (s : IStream) : Bool := s.failbit || s.badbit

/-- The flags after a read behind the last byte. -/
def atEnd (s : IStream) : IStream :=
  if s.broken then {s with badbit := true} else {s with eofbit := true}

def advance (s : IStream) (n : Nat) : IStream :=
  {s with before := (s.after.take n).reverse ++ s.before, after := s.after.drop n}

/-- `get(c)`: on failure `c` keeps its value. -/
def get (s : IStream) : IStream × Option Byte :=
  if s.good then
    match s.after with
    | [] => ({s.atEnd with failbit := true},none)
    | b :: rest => ({s with before := b :: s.before, after := rest},some b)
  else ({s with failbit := true},none)

/-- `get(buffer, n, delimiter)`: at most `n-1` bytes, up to the delimiter or the
end; the byte behind them is looked at and stays. -/
def getUntil (s : IStream) (n : Nat) (delimiter : Byte) : IStream × Bytes :=
  if s.good then
    let text := (s.after.takeWhile (· ≠ delimiter)).take (n - 1)
    let s := s.advance text.length
    let s := if s.after = [] then s.atEnd else s
    (if text = [] then {s with failbit := true} else s,text)
  else ({s with failbit := true},[])

/-- `seekg(-1, cur)` clears `eofbit` and steps back over one byte. -/
def seekBack (s : IStream) : IStream :=
  let s := {s with eofbit := false}
  if s.fail then {s with failbit := true} else
  match s.before with
  | [] => {s with failbit := true}
  | b :: rest => {s with before := rest, after := b :: s.after}

/-- The optional sign of a numeral: whether it is negative, and its length. -/
def sign : Bytes → Bool × Nat
  | [] => (false,0)
  | b :: _ => (b = minus,if b = minus ∨ b = plus then 1 else 0)

/-- What a numeral stores in an `int`, and whether it fits. -/
def store (z : Int) : Int32 × Bool :=
  if z < Int32.minValue.toInt then (Int32.minValue,false)
  else if Int32.maxValue.toInt < z then (Int32.maxValue,false)
  else (Int32.ofInt z,true)

/-- `operator>>(int&)`. Where nothing can be extracted because the stream is not
good or ends before the numeral, the variable keeps its `prior` value; text that
is no numeral stores zero, a numeral out of range the nearest bound. -/
def extractInt (s : IStream) (prior : Int32) : IStream × Int32 :=
  if s.good then
    let s := s.advance (s.after.takeWhile isSpace).length
    if s.after = [] then ({s.atEnd with failbit := true},prior)
    else
      let (negative,width) := sign s.after
      let digits := (s.after.drop width).takeWhile isDigit
      let s := s.advance (width + digits.length)
      if s.after = [] ∧ s.broken = true then (s.atEnd,prior)
      else
        let s := if s.after = [] then s.atEnd else s
        if digits = [] then ({s with failbit := true},0)
        else
          let (value,fits) := store (if negative then -(number digits : Int) else number digits)
          (if fits then s else {s with failbit := true},value)
  else ({s with failbit := true},prior)

abbrev ready (before after : Bytes) (broken : Bool) : IStream := ⟨before,after,broken,false,false,false⟩

/-- What is left to read from a sound device is `text`; a stream that is no
longer good has nothing left. -/
def Holds (s : IStream) (text : Bytes) : Prop :=
  s.broken = false ∧ (s.good = true ∧ s.after = text ∨ s.good = false ∧ text = [])

theorem holds_ready (before after : Bytes) : Holds (ready before after false) after :=
  ⟨rfl,.inl ⟨rfl,rfl⟩⟩

theorem holds_opened (content : Bytes) : Holds (opened content none) content := holds_ready [] content

theorem opened_behind (content : Bytes) (position : Nat) (behind : content.length < position) :
    opened content (some position) = opened content none := by
  simp [opened,List.take_of_length_le behind.le,Nat.not_le_of_lt behind]

theorem good_iff (s : IStream) : s.good = true ↔ s = ready s.before s.after s.broken := by
  obtain ⟨before,after,broken,eofbit,failbit,badbit⟩ := s
  simp [good,and_assoc]

theorem Holds.cases {s : IStream} {text : Bytes} (holds : Holds s text) :
    (∃ before, s = ready before text false) ∨ s.good = false ∧ text = [] := by
  obtain ⟨sound,⟨alive,rfl⟩ | dead⟩ := holds
  · left
    have same := (good_iff s).mp alive
    rw [sound] at same
    exact ⟨s.before,same⟩
  · exact .inr dead

@[simp] theorem advance_ready (before after : Bytes) (broken : Bool) (n : Nat) :
    (ready before after broken).advance n =
      ready ((after.take n).reverse ++ before) (after.drop n) broken := rfl

theorem get_dead (s : IStream) (dead : s.good = false) : s.get = ({s with failbit := true},none) := by
  simp [get,dead]

@[simp] theorem get_ready_nil (before : Bytes) (broken : Bool) :
    (ready before [] broken).get = ({(ready before [] broken).atEnd with failbit := true},none) := rfl

@[simp] theorem get_ready_cons (before rest : Bytes) (broken : Bool) (b : Byte) :
    (ready before (b :: rest) broken).get = (ready (b :: before) rest broken,some b) := rfl

theorem getUntil_ready (before after : Bytes) (broken : Bool) (n : Nat) (delimiter : Byte)
    (text rest : Bytes) (found : (after.takeWhile (· ≠ delimiter)).take (n - 1) = text)
    (nonempty : text ≠ []) (behind : after.drop text.length = rest) :
    (ready before after broken).getUntil n delimiter =
      (if rest = [] then (ready ((after.take text.length).reverse ++ before) rest broken).atEnd
        else ready ((after.take text.length).reverse ++ before) rest broken,text) := by
  subst behind
  simp only [getUntil,good,Bool.not_false,Bool.and_self,if_true,found,if_neg nonempty,advance_ready]

@[simp] theorem seekBack_ready (before rest : Bytes) (broken : Bool) (b : Byte) :
    (ready (b :: before) rest broken).seekBack = ready before (b :: rest) broken := rfl

theorem get_some (s : IStream) (b : Byte) (read : s.get.2 = some b) :
    s = ready s.before (b :: s.get.1.after) s.broken ∧
      s.get.1 = ready (b :: s.before) s.get.1.after s.broken := by
  cases alive : s.good with
  | false => simp [get_dead s alive] at read
  | true =>
    rw [(good_iff s).mp alive] at read ⊢
    cases rest : s.after with
    | nil => simp [rest] at read
    | cons c tail =>
      rw [rest] at read
      cases Option.some.inj read
      exact ⟨rfl,rfl⟩

theorem get_none (s : IStream) (nothing : s.get.2 = none) :
    s.get.1.good = false ∧ s.get.1.after = s.after ∧ s.get.1.broken = s.broken := by
  cases alive : s.good with
  | false => simp [get_dead s alive,good]
  | true =>
    rw [(good_iff s).mp alive] at nothing ⊢
    cases rest : s.after with
    | nil => cases s.broken <;> simp [atEnd,good]
    | cons c tail => simp [rest] at nothing

theorem get_after_le (s : IStream) : s.get.1.after.length ≤ s.after.length := by
  cases read : s.get.2 with
  | none => rw [(get_none s read).2.1]
  | some b =>
    rw [congrArg IStream.after (get_some s b read).1]
    simp

@[simp] theorem atEnd_after (s : IStream) : s.atEnd.after = s.after := by
  unfold atEnd
  split <;> rfl

theorem extractInt_after_le (s : IStream) (prior : Int32) :
    (s.extractInt prior).1.after.length ≤ s.after.length := by
  unfold extractInt
  dsimp only
  repeat' split
  all_goals simp only [advance,atEnd_after,List.length_drop]; omega

theorem extractInt_stream (s : IStream) (prior other : Int32) : (s.extractInt prior).1 = (s.extractInt other).1 := by
  unfold extractInt
  dsimp only
  repeat' split
  all_goals rfl

theorem extractInt_stop (before text : Bytes) (broken : Bool) (prior : Int32) (numeral digits behind : Bytes)
    (negative : Bool) (width : Nat) (skipped : text.drop (text.takeWhile isSpace).length = numeral)
    (nonempty : numeral ≠ []) (signed : sign numeral = (negative,width))
    (found : (numeral.drop width).takeWhile isDigit = digits)
    (left : numeral.drop (width + digits.length) = behind) (more : behind ≠ []) :
    ∃ passed, (ready before text broken).extractInt prior =
      if digits = [] then ({ready passed behind broken with failbit := true},0)
      else
        let (value,fits) := store (if negative then -(number digits : Int) else number digits)
        (if fits then ready passed behind broken else {ready passed behind broken with failbit := true},value) := by
  refine ⟨(numeral.take (width + digits.length)).reverse ++
    ((text.take (text.takeWhile isSpace).length).reverse ++ before),?_⟩
  simp only [extractInt,good,Bool.not_false,Bool.and_self,if_true,advance_ready,skipped,if_neg nonempty,signed,
    found,left,if_neg more,if_neg fun ended : behind = [] ∧ broken = true => more ended.1]

private theorem digit_not_space (b : Byte) (isDigitB : isDigit b = true) : isSpace b = false := by
  simp only [isDigit,isSpace,Bool.and_eq_true,decide_eq_true_eq,Bool.or_eq_false_iff,
    Bool.and_eq_false_iff,decide_eq_false_iff_not] at isDigitB ⊢
  omega

private theorem digit_not_sign (b : Byte) (isDigitB : isDigit b = true) : b ≠ minus ∧ b ≠ plus :=
  ⟨isDigit_ne b minus isDigitB rfl,isDigit_ne b plus isDigitB rfl⟩

theorem numeral_parts {text : Bytes} {z : Int} (numeral : Numeral text z) (rest : Bytes)
    (stop : ∀ b ∈ rest.head?, isDigit b = false) :
    ∃ negative width digits, (text ++ rest).takeWhile isSpace = [] ∧ sign (text ++ rest) = (negative,width) ∧
      ((text ++ rest).drop width).takeWhile isDigit = digits ∧ digits ≠ [] ∧ width + digits.length = text.length ∧
      (if negative then -(number digits : Int) else number digits) = z := by
  have taken {digits : Bytes} (all : ∀ b ∈ digits, isDigit b = true) : (digits ++ rest).takeWhile isDigit = digits := by
    rw [List.takeWhile_append_of_pos all]
    cases rest with
    | nil => simp
    | cons b more => simp [stop b (by simp)]
  cases numeral with
  | plain digits nonempty all =>
    obtain ⟨d,ds,rfl⟩ := List.exists_cons_of_ne_nil nonempty
    have digitD := all d List.mem_cons_self
    refine ⟨false,0,d :: ds,?_,?_,taken all,nonempty,Nat.zero_add _,rfl⟩
    · simp [digit_not_space d digitD]
    · simp [sign,digit_not_sign d digitD]
  | positive digits nonempty all =>
    exact ⟨false,1,digits,rfl,rfl,taken all,nonempty,Nat.add_comm 1 _,rfl⟩
  | negative digits nonempty all =>
    exact ⟨true,1,digits,rfl,rfl,taken all,nonempty,Nat.add_comm 1 _,rfl⟩

/-- Extracting a numeral that ends with the text or in front of a byte that is no digit. -/
theorem extractInt_numeral (before rest : Bytes) {text : Bytes} {z : Int} (numeral : Numeral text z)
    (prior : Int32) (stop : ∀ b ∈ rest.head?, isDigit b = false) :
    ∃ passed, (ready before (text ++ rest) false).extractInt prior =
      let s := if rest = [] then (ready passed [] false).atEnd else ready passed rest false
      (if (store z).2 then s else {s with failbit := true},(store z).1) := by
  obtain ⟨negative,width,digits,noSpace,signed,found,nonempty,size,value⟩ := numeral_parts numeral rest stop
  have whole : text ++ rest ≠ [] := List.append_ne_nil_of_left_ne_nil numeral.nonempty rest
  refine ⟨text.reverse ++ before,?_⟩
  simp only [extractInt,good,Bool.not_false,Bool.and_self,if_true,noSpace,List.length_nil,
    advance_ready,List.take_zero,List.reverse_nil,List.nil_append,List.drop_zero,if_neg whole,
    signed,found,size,List.take_left,List.drop_left,Bool.false_eq_true,and_false,if_false,
    value,if_neg nonempty]
  cases rest <;> rfl

theorem store_fits (z : Int) (fits : (store z).2 = true) : (store z).1.toInt = z := by
  unfold store at fits ⊢
  split at fits
  · cases fits
  · rename_i low
    split at fits
    · cases fits
    · rename_i high
      rw [if_neg low,if_neg high]
      rw [Int32.toInt_minValue] at low
      rw [Int32.toInt_maxValue] at high
      exact Int32.toInt_ofInt_of_le (by omega) (by omega)

theorem store_beyond (z : Int) (beyond : (store z).2 = false) (n : Int32) : n.toInt ≠ z := by
  have low := n.le_toInt
  have high := n.toInt_lt
  unfold store at beyond
  split at beyond
  · rename_i below
    rw [Int32.toInt_minValue] at below
    omega
  · split at beyond
    · rename_i above
      rw [Int32.toInt_maxValue] at above
      omega
    · cases beyond

theorem store_int (n : Int32) : store n.toInt = (n,true) := by
  cases fits : (store n.toInt).2 with
  | false => exact absurd rfl (store_beyond n.toInt fits n)
  | true => exact Prod.ext (Int32.toInt_inj.mp (store_fits n.toInt fits)) fits

end IStream
end Library.InputStream
