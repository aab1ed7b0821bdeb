import SphereIndex.Geographic
import SphereIndex.Message
import SphereIndex.Proofs.Arc.Exit
import SphereIndex.Proofs.Arc.Joints
import SphereIndex.Proofs.Arc.Reach
import SphereIndex.Proofs.Cell.Continuity
import SphereIndex.Proofs.Cell.Fit
import SphereIndex.Proofs.Cell.Owner
import SphereIndex.Proofs.Cell.Table
import SphereIndex.Proofs.Cell.Token
import SphereIndex.Proofs.Face.Leaf
import SphereIndex.Proofs.Face.Normals
import SphereIndex.Proofs.Index.Builder
import SphereIndex.Proofs.Index.Division
import SphereIndex.Proofs.Index.Growth
import SphereIndex.Proofs.Index.Refinement
import SphereIndex.Proofs.Index.Renaming
import SphereIndex.Proofs.Planar.Chain
import SphereIndex.Proofs.Planar.Points
import SphereIndex.Proofs.Query.Beside
import SphereIndex.Proofs.Query.Point
import SphereIndex.Proofs.Query.Reverse
import SphereIndex.Proofs.Query.Waiting
import SphereIndex.Proofs.Shape.Vertices
