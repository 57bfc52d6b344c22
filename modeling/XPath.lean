import XPath.Proofs.Protocol
import XPath.Proofs.StaticErrors
import XPath.Proofs.StaticTypes
import XPath.Proofs.ExpressionForest
import XPath.Proofs.DescentCursor
import XPath.Proofs.GeneralComparison
import XPath.Proofs.Unions
import XPath.Proofs.Navigation
import XPath.Proofs.StringValues
import XPath.Proofs.Confinement
import XPath.Proofs.IntegerArithmetic
import XPath.Proofs.Comparisons
import XPath.Proofs.Differences
import XPath.Proofs.DurationTexts
import XPath.Proofs.ReturnTypes
import XPath.Proofs.Resolution
import XPath.Proofs.Messages
