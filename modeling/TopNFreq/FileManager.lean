import TopNFreq.MemPool
import TopNFreq.Library.InputStream
import TopNFreq.Library.Loop

/-! `file-manager.h`, `file-manager.cpp`: reading lines and writing spill files. -/
namespace TopNFreq
open Library.Text Library.InputStream Library.Loop

def MAX_URL_LEN : Nat := 1025

/-- The contents of the files by name. -/
abbrev Disk := Bytes → Option Bytes

/-- An output file stream: the name of the open file, and the state. -/
structure OStream where
  target : Option Bytes
  failbit : Bool

namespace OStream

def close (self : OStream) : OStream :=
  match self.target with
  | none => {self with failbit := true}
  | some _ => {self with target := none}

/-- Opening truncates the file and, on success, clears the state. -/
def openFile (self : OStream) (disk : Disk) (name : Bytes) (fault : Bool) : Disk × OStream :=
  if fault then (disk,{self with failbit := true})
  else (Function.update disk name (some []),⟨some name,false⟩)

def put (self : OStream) (disk : Disk) (text : Bytes) : Disk × OStream :=
  if self.failbit then (disk,self) else
  match self.target with
  | none => (disk,{self with failbit := true})
  | some name => (Function.update disk name (some ((disk name).getD [] ++ text)),self)

end OStream

/-- `rows` counts the rows handed to `WriteResultTuple` in the run; `handed` lists
them by spill file. Only the pattern of faults refers to the count, and no code
reads the list. -/
structure FileManager where
  file_name_ : Bytes
  in_ : IStream
  out_ : OStream
  output_files_ : Nat
  rows : Nat
  handed : List (List (Bytes × Int32))

def appendLast {α : Type} (lists : List (List α)) (item : α) : List (List α) :=
  match lists with
  | [] => []
  | [last] => [last ++ [item]]
  | first :: second :: rest => first :: appendLast (second :: rest) item

namespace FileManager

/-- The variables of the loop that skips leading delimiters; `more` is the value
of the last `in.get(c)`. -/
structure Scan where
  in_ : IStream
  c : Byte
  more : Bool

/-- `while (c == delimiter && in.get(c));` -/
def skipDelimiter (delimiter : Byte) (s : Scan) : Option Scan :=
  if s.c = delimiter ∧ s.more = true then
    match s.in_.get with
    | (in_,none) => some ⟨in_,s.c,false⟩
    | (in_,some c) => some ⟨in_,c,true⟩
  else none

/-- The bytes left in the buffer, `none` for the result `false`. -/
def ReadLine (in_ : IStream) (max_len : Nat) (delimiter : Byte) : IStream × Option Bytes :=
  let s := loop (skipDelimiter delimiter) (in_.after.length + 1) ⟨in_,delimiter,true⟩
  if s.c = delimiter then (s.in_,none)
  else
    let (in_,buffer) := s.in_.seekBack.getUntil max_len delimiter
    if in_.fail then (in_,none)
    else (in_.get.1,some buffer)

/-- `.out.` -/
def suffix : Bytes := [46,111,117,116,46]

def OutputFileName (base_file_name : Bytes) (file_index : Nat) : Bytes :=
  base_file_name ++ suffix ++ decimal file_index

def new (file_name : Bytes) : FileManager := ⟨file_name,.unopened,⟨none,false⟩,0,0,[]⟩

def Open (env : Env) (disk : Disk) (self : FileManager) : Bool × FileManager :=
  match if env.faults.openInput then none else disk self.file_name_ with
  | none => (false,{self with in_ := .unopened})
  | some content => (true,{self with in_ := .opened content env.faults.readInput})

def Close (self : FileManager) : Bool × FileManager :=
  (true,{self with in_ := .unopened, out_ := self.out_.close})

def TotalOutputFiles (self : FileManager) : Nat := self.output_files_

def NewOutputFile (env : Env) (disk : Disk) (self : FileManager) : Bool × Disk × FileManager :=
  let name := OutputFileName self.file_name_ self.output_files_
  let (disk,out_) := self.out_.close.openFile disk name (env.faults.createSpill self.output_files_)
  (!out_.failbit,disk,{self with
    out_, output_files_ := self.output_files_ + 1, handed := self.handed ++ [[]]})

def WriteResultTuple (env : Env) (mem : Memory) (disk : Disk) (self : FileManager)
    (res : ResultTuple) : Bool × Disk × FileManager :=
  let out_ := if env.faults.writeRow self.rows then {self.out_ with failbit := true} else self.out_
  let (disk,out_) := out_.put disk (res.str.toString mem)
  let (disk,out_) := out_.put disk (tab :: decimalInt res.cnt.toInt ++ [newline])
  (!out_.failbit,disk,{self with
    out_, rows := self.rows + 1, handed := appendLast self.handed (res.str.toString mem,res.cnt)})

end FileManager
end TopNFreq
