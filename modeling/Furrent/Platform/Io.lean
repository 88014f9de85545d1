import Furrent.Framework.Writes
import Mathlib.Logic.Function.Basic

/-! # Files

    Model of `write_bytes` in `src/platform/io.cpp`. A path leads to a file,
    several paths may lead to the same one, and a file is its bytes. How a
    call fares with the operating system is given by a `WriteFault`.

    `write_bytes` asks `stream.good()` before the stream is closed. What is
    still in the buffer then gets to the device only when the destructor
    runs, and a failure there goes unnoticed: the call returns `OK` and the
    bytes are lost. -/

namespace Furrent.Platform

open Cpp

/-- `IOError`, the members the modelled functions use. -/
inductive IOError where
  | genericError
  | cannotOpenFile
  | invalidPath
  | fileAlreadyExists
  | directoryAlreadyExists
  deriving DecidableEq, Repr

structure FileSystem where
  /-- The file a path leads to. -/
  lookup : Bytes → Option Nat
  content : Nat → Bytes

namespace FileSystem

/-- Write `bytes` at offset `offset` of file `i`. -/
def write (fs : FileSystem) (i : Nat) (bytes : Bytes) (offset : Nat) : FileSystem :=
  { fs with content := Function.update fs.content i (overwrite 0 (fs.content i) offset bytes) }

@[simp] theorem lookup_write (fs : FileSystem) (i : Nat) (bytes : Bytes) (offset : Nat) :
    (fs.write i bytes offset).lookup = fs.lookup := rfl

theorem content_write_self (fs : FileSystem) (i : Nat) (bytes : Bytes) (offset : Nat) :
    (fs.write i bytes offset).content i = overwrite 0 (fs.content i) offset bytes :=
  Function.update_self ..

theorem content_write_of_ne (fs : FileSystem) {i j : Nat} (h : j ≠ i) (bytes : Bytes)
    (offset : Nat) : (fs.write i bytes offset).content j = fs.content j :=
  Function.update_of_ne h ..

/-- A write to file `i`. -/
structure Call where
  file : Nat
  write : Write UInt8

/-- Some writes, one after the other. -/
def writeAll (fs : FileSystem) (calls : List Call) : FileSystem :=
  calls.foldl (fun fs c => fs.write c.file c.write.elems c.write.offset) fs

@[simp] theorem lookup_writeAll (fs : FileSystem) (calls : List Call) :
    (fs.writeAll calls).lookup = fs.lookup := by
  induction calls generalizing fs with
  | nil => rfl
  | cons c calls ih => exact ih _

/-- Of several writes, those to a file act on it. -/
theorem content_writeAll (fs : FileSystem) (calls : List Call) (i : Nat) :
    (fs.writeAll calls).content i
      = Write.run 0 ((calls.filter (·.file = i)).map Call.write) (fs.content i) := by
  induction calls generalizing fs with
  | nil => rfl
  | cons c calls ih =>
    rw [writeAll, List.foldl_cons, ← writeAll, ih]
    by_cases hc : c.file = i
    · rw [List.filter_cons_of_pos (by simpa using hc), List.map_cons, Write.run_cons, ← hc,
        content_write_self]
    · rw [List.filter_cons_of_neg (by simpa using hc), content_write_of_ne fs (Ne.symm hc)]

end FileSystem

/-- How a call of `write_bytes` fares. -/
structure WriteFault where
  opens : Bool := true
  /-- How many bytes get to the file, unless all. -/
  written : Option Nat := none
  /-- `stream.good()` at the end. Bytes may be lost later, when the stream is
      closed. -/
  good : Bool := true
  deriving DecidableEq, Repr

namespace WriteFault

/-- How many of `n` bytes get to the file. -/
def count (fault : WriteFault) (n : Nat) : Nat := min (fault.written.getD n) n

/-- The bytes that get to the file. -/
def kept (fault : WriteFault) (bytes : Bytes) : Bytes := bytes.take (fault.count bytes.length)

theorem kept_initial (fault : WriteFault) (bytes : Bytes) : fault.kept bytes <+: bytes :=
  List.take_prefix _ _

theorem length_kept (fault : WriteFault) (bytes : Bytes) :
    (fault.kept bytes).length = fault.count bytes.length := by
  rw [kept, List.length_take, count]
  omega

/-- Nothing is lost. -/
theorem kept_of_written {fault : WriteFault} (h : fault.written = none) (bytes : Bytes) :
    fault.kept bytes = bytes := by
  rw [kept, count, h, Option.getD_none, Nat.min_self, List.take_length]

end WriteFault

/-- `write_bytes`. -/
def writeBytes (fault : WriteFault) (fs : FileSystem) (filename bytes : Bytes) (offset : Int) :
    FileSystem × Outcome IOError Unit :=
  match fs.lookup filename with
  | none => (fs, .error (.error .genericError))
  | some i =>
    if fault.opens = false then (fs, .error (.error .genericError))
    else if INT64_MAX < bytes.length then
      (fs, .error (.throw (.invalidArgument "too many bytes to write")))
    -- `seekp` fails, and nothing is written to a failed stream
    else if offset < 0 then (fs, .error (.error .genericError))
    else
      (fs.write i (fault.kept bytes) offset.toNat,
        if fault.good then .ok () else .error (.error .genericError))

/-- When a call returns `OK`, and what it has done then. -/
theorem writeBytes_eq_ok_iff {fault : WriteFault} {fs fs' : FileSystem} {filename bytes : Bytes}
    {offset : Int} : writeBytes fault fs filename bytes offset = (fs', .ok ()) ↔
      ∃ i, fs.lookup filename = some i ∧ fault.opens = true ∧ fault.good = true ∧
        bytes.length ≤ INT64_MAX ∧ 0 ≤ offset ∧
        fs' = fs.write i (fault.kept bytes) offset.toNat := by
  unfold writeBytes
  cases fs.lookup filename with
  | none => simp
  | some i =>
    simp only [Option.some.injEq, exists_eq_left', guard_mk_eq_ok, Bool.not_eq_false, not_lt]
    cases fault.good with
    | false => simp
    | true =>
      constructor
      · rintro ⟨hopens, hlength, hoff, h⟩
        exact ⟨hopens, rfl, hlength, hoff, (congrArg Prod.fst h).symm⟩
      · rintro ⟨hopens, _, hlength, hoff, rfl⟩
        exact ⟨hopens, hlength, hoff, rfl⟩

end Furrent.Platform
