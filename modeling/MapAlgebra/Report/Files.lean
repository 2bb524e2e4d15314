import MapAlgebra.Picture.File
import MapAlgebra.Report.Run

/-! Complaints about files. -/

namespace MapAlgebra

def FileError.complaintAfter (e : FileError) (words : String) : Complaint :=
  .ofText (if e.fault = .notFound then "NotExist" else "Error") (words ++ e.message)

def FileError.complaint (e : FileError) : Complaint := e.complaintAfter ""

def ImageFileError.complaintAfter (e : ImageFileError) (words : String) : Complaint :=
  match e, e.message with
  | .file error, _ => error.complaintAfter words
  | .container _ .unholdable, _ => .crash
  | _, some message => .plain (words ++ message)
  | _, none => .codec

def ImageFileError.complaint (e : ImageFileError) : Complaint := e.complaintAfter ""

end MapAlgebra
