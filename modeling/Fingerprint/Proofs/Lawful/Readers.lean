import Fingerprint.Proofs.Lawful.Memory
import Fingerprint.Proofs.Lawful.Units

/-!
# Every reader is lawful
-/

namespace Fingerprint.Reader
set_option autoImplicit false

/-- Every reader, swapped any number of times, gives the bytes of the image of its input: of memory
the bytes in a row, of a buffer its storage, of units each unit laid out in the order read. -/
theorem lawfulAtDepth_readers :
    (∀ {α : Type} [Scalar α] (values : Array α),
      memory.LawfulAtDepth values (Scalar.image values) .native) ∧
    (∀ s : String, memory.LawfulAtDepth s s.toByteArray.data .native) ∧
    (∀ (m : Memory) (size : Nat),
      memory.LawfulAtDepth m (Array.ofFn fun i : Fin size => m.cell i) .native) ∧
    (∀ b : Buffer, Buffer.reader.LawfulAtDepth b b.storage b.order) ∧
    ∀ order : ByteOrder,
      (∀ units : Array UInt16,
        (Reader.units order).LawfulAtDepth units (Units.image order units) order) ∧
      (∀ ring : Ring,
        (Reader.units order).LawfulAtDepth ring (Units.image order ring.units) order) ∧
      (∀ t : Text, (Reader.units order).LawfulAtDepth t (Units.image order t.units) order) ∧
      (∀ {ι : Type} [UnitSequence ι] (x : Borrowed ι) (image : Array UInt8),
        (Reader.units order).Lawful x.target image →
          (Reader.units order).LawfulAtDepth x image order) ∧
      ∀ bytes : Array UInt8,
        (latin1 order).LawfulAtDepth bytes (Units.image order (bytes.map UInt8.toUInt16)) order := by
  refine ⟨?_, ?_, ?_, ?_, fun order => ⟨?_, ?_, ?_, ?_, ?_⟩⟩
  · intro α _ values
    exact (lawful_array values).atDepth
  · intro s
    exact (lawful_string s).atDepth
  · intro m size
    exact (lawful_cells m size).atDepth
  · intro b
    exact b.lawful_reader.atDepth
  · intro units
    exact (lawful_units order units).atDepth
  · intro ring
    exact (lawful_ring order ring).atDepth
  · intro t
    exact (lawful_text order t).atDepth
  · intro ι _ x image h
    exact (Lawful.borrowed order h).atDepth
  · intro bytes
    exact (lawful_latin1 order bytes).atDepth

end Fingerprint.Reader
