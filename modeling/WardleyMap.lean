import WardleyMap.Editor.Call
import WardleyMap.Proofs.Mutation.Run
import WardleyMap.Proofs.Mutation.Evolved
import WardleyMap.Proofs.Mutation.Locality
import WardleyMap.Proofs.Mutation.Returns
import WardleyMap.Proofs.Name.Backslash
import WardleyMap.Proofs.Name.Normal
import WardleyMap.Proofs.Grammar.Phrase
import WardleyMap.Proofs.Edit.Rename
import WardleyMap.Proofs.Edit.Restate
import WardleyMap.Proofs.Edit.Evolution
import WardleyMap.Proofs.Edit.QuotedOverride
import WardleyMap.Proofs.Edit.Keyword
import WardleyMap.Proofs.Edit.Order
import WardleyMap.Proofs.Edit.WrittenNumber
import WardleyMap.Proofs.Edit.Remark
import WardleyMap.Proofs.Edit.RenameAgain
import WardleyMap.Proofs.Edit.LabelAgain
import WardleyMap.Proofs.Edit.Simultaneous
import WardleyMap.Proofs.Gesture.Region
import WardleyMap.Proofs.Editor.Refused
import WardleyMap.Proofs.Editor.Written
import WardleyMap.Proofs.Statement.Coverage
