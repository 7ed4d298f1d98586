import RdfMapping.Main
import RdfMapping.Proofs.Decoding.Coverage
import RdfMapping.Proofs.Decoding.FreshIds
import RdfMapping.Proofs.Decoding.Nesting
import RdfMapping.Proofs.Decoding.SpelledOut
import RdfMapping.Proofs.DoubleTags
import RdfMapping.Proofs.Emission.Faithful
import RdfMapping.Proofs.Emission.KeptNames
import RdfMapping.Proofs.Iri.KeptReferences
import RdfMapping.Proofs.Mapping.StoreRuns
import RdfMapping.Proofs.Rdf.WrittenTurtle
import RdfMapping.Proofs.Shorthand.MergedDocuments
import RdfMapping.Proofs.Shorthand.SurfaceForms
import RdfMapping.Proofs.Shorthand.Writable
import RdfMapping.Proofs.Text.EditScripts
