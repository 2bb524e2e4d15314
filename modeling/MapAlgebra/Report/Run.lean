import MapAlgebra.Job
import MapAlgebra.Picture
import MapAlgebra.Raster.Container
import MapAlgebra.Report.Script

/-! Descriptions of compiled scripts, rasters, pictures and jobs, and complaints about them. -/

namespace MapAlgebra

open Report (Fields SampleStyle)

def Bindings.report (bindings : Bindings) : Report :=
  .each bindings fun b => .texts [b.name, b.role.name]

def Chunk.report (style : SampleStyle) (c : Chunk) : Report :=
  .record [("name", c.name), ("code", Text.hexBytes c.code.toList),
    ("constants", .each c.constants.toList style),
    ("functions", .each c.functions.toList Function.reference), ("max_stack", c.maxStack),
    ("source_map", .each c.marks.toList fun m => .ints [m.offset, m.line, m.column])]

def Code.report (style : SampleStyle) : Code → Report
  | .chunk c => c.report style
  | .tree _ => .null

def Compiled.report (style : SampleStyle) (c : Compiled) : Report :=
  let p := c.program
  .record [("problems", c.problems.report), ("images", Bindings.report p.images),
    ("vars", .texts p.varNames), ("persistent", .each p.persistent .bool),
    ("strategy", p.strategy.name), ("has_init", p.init.isSome),
    ("init", .optional (p.init.map (·.report style))), ("body", p.body.report style),
    ("disasm", p.listing)]

def CompileError.complaint (e : CompileError) : Complaint :=
  match e with
  | .unparsed _ | .unresolved _ => .ofText "CompileError" e.message
  | _ => .plain e.message

def CompileError.fields (e : CompileError) : Fields :=
  let parsed :=
    match e with
    | .unparsed _ => false
    | _ => true
  e.complaint.fields ++
    match e.problems? with
    | some ps =>
      [("problems", ps.report), ("has_script", .bool parsed), ("has_program", .bool false)]
    | none => []

def Rect.report (r : Rect) : Report := .ints [r.minX, r.minY, r.maxX, r.maxY]

def TileSize.report (t : TileSize) : Report := .ints [t.width, t.height]

def Raster.fields (style : SampleStyle) (r : Raster) : Fields :=
  [("rect", r.bounds.report), ("bands", r.bands), ("pix", .each r.samples.toList style)]

def Raster.report (style : SampleStyle) (r : Option Raster) : Report :=
  .optional (r.map fun r => .record (r.fields style))

def NamedRasters.report (style : SampleStyle) (rasters : NamedRasters) : Report :=
  .record (rasters.map fun (name, r) => (name, Raster.report style r))

def ColorModel.names : List (String × ColorModel) :=
  [("gray", .gray), ("gray16", .gray16), ("alpha", .alpha), ("rgba", .rgba), ("rgba64", .rgba64),
   ("nrgba", .nrgba), ("nrgba64", .nrgba64)]

def ColorModel.name (model : ColorModel) : String :=
  ((names.find? (·.2 == model)).map (·.1)).getD ""

def Picture.report (p : Picture) : Report :=
  .record [("type", p.model.name), ("rect", p.bounds.report),
    ("pix", .each p.pixels.toList fun pixel => .each pixel fun n => n)]

def TileGrid.fields (g : TileGrid) : Fields :=
  [("bounds", g.bounds.report), ("tile", g.tile.report), ("len", g.count)]

def ContainerError.complaint (e : ContainerError) : Complaint :=
  match e, Container.message e with
  | .unholdable, _ => .crash
  | _, some message => .plain message
  | _, none => .codec

def RasterError.complaint : RasterError → Complaint
  | .noBands n => .broken s!"vm: buffer needs at least one band, got {n}"
  | .tooLarge => .crash

def Failure.complaint (f : Failure) : Complaint :=
  match f with
  | .compile e => e.complaint
  | .images _ => .ofText "ImageBindingError" f.message
  | .evaluation e => e.complaint
  | .cancelled _ => .ofText "Cancelled" f.message

def ImageFault.complaint (fault : ImageFault) : Complaint :=
  Failure.complaint (.images [fault])

def Job.Ending.complaint? : Job.Ending → Option Complaint
  | .completed => none
  | .failed cause => some cause.complaint
  | .crashed => some .crash
  | .unfinished => some Stop.unfinished.complaint

def Event.report (style : SampleStyle) : Event → Report
  | .progress f => .list [.text "progress", style f]
  | .completion => .texts ["completion"]
  | .failure cause => .texts ["failure", cause.complaint.kind]

def Job.fields (style : SampleStyle) (job : Job) : Fields :=
  [("state", .text job.state.name), ("terminal", .bool job.state.isTerminal),
    ("progress", style job.progress), ("has_runtime", .bool job.scene.isSome),
    ("has_result", .bool job.problems.isSome)]
    ++ (job.failure.map fun f => ("err", f.complaint.report)).toList
    ++ (job.problems.map fun ps => ("problems", ps.report)).toList

end MapAlgebra
