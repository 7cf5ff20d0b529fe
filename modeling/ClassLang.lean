import ClassLang.Compilation
import ClassLang.Main
import ClassLang.Proofs.BoundedLookahead
import ClassLang.Proofs.BoundedRecursion
import ClassLang.Proofs.CallingConvention
import ClassLang.Proofs.DataOperations
import ClassLang.Proofs.Fallbacks
import ClassLang.Proofs.LayoutBlocks
import ClassLang.Proofs.LexicalFaults
import ClassLang.Proofs.ListingOrder
import ClassLang.Proofs.NumberPrinting
import ClassLang.Proofs.ObjectMoves
import ClassLang.Proofs.RenamingHygiene
import ClassLang.Proofs.Respelling
import ClassLang.Proofs.ScopeTiling
import ClassLang.Proofs.SemanticPreservation
import ClassLang.Proofs.SeparateTranslation
import ClassLang.Proofs.Sessions
import ClassLang.Proofs.StackSlots
import ClassLang.Proofs.StringPrinting
import ClassLang.Proofs.TableOperations
import ClassLang.Proofs.ArgumentSpelling
