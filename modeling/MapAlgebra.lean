import MapAlgebra.Main
import MapAlgebra.Report.Editor
import MapAlgebra.Proofs.Code.Emission
import MapAlgebra.Proofs.Code.StackDiscipline
import MapAlgebra.Proofs.Raster.Acceptance
import MapAlgebra.Proofs.Raster.Addressing
import MapAlgebra.Proofs.Raster.Reading
import MapAlgebra.Proofs.Journal.Stream
import MapAlgebra.Proofs.Scene.Assignment
import MapAlgebra.Proofs.Sweep.TileSizes
import MapAlgebra.Proofs.Scene.Options
import MapAlgebra.Proofs.Scene.Termination
import MapAlgebra.Proofs.Scope.ImageReports
import MapAlgebra.Proofs.Scope.SymbolTable
import MapAlgebra.Proofs.Scene.Binding
import MapAlgebra.Proofs.Scene.Isolation
import MapAlgebra.Proofs.Script.Spans
import MapAlgebra.Proofs.Editor.Words
import MapAlgebra.Proofs.Journal.Jobs
import MapAlgebra.Proofs.Manifest.Outputs
